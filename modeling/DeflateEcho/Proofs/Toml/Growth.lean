import Mathlib
import DeflateEcho.Toml.Document

/-!
# Proofs/Toml/Growth — what tables keep while they grow

A file is read by one change of its tables after the other, and each change puts something at a key
of some table, however deep, in its place or at the end.  So a property of tables that **putting
something at a key keeps** is kept by every change along a path and by every statement: `Growing`
says what has to be shown of the property, and from it the rest follows once and for all.  Changes
may be refused; what they keep is said of what they give, with `SatisfiesM`.

That no table has a key twice is such a property.
-/

namespace DeflateEcho.Toml

/-! ## Entries of a table -/

namespace Entries

@[simp] theorem find?_nil (k : String) : find? [] k = none := rfl

theorem find?_cons (entry : String × Node) (entries : Entries) (k : String) :
    find? (entry :: entries) k = if k = entry.1 then some entry.2 else entries.find? k := by
  rw [find?, List.lookup_cons]
  by_cases hk : k = entry.1
  · simp [hk]
  · rw [if_neg hk, beq_false_of_ne hk]
    rfl

theorem find?_put (entries : Entries) (key : String) (node : Node) (k : String) :
    (entries.put key node).find? k = if k = key then some node else entries.find? k := by
  induction entries with
  | nil => rw [put, find?_cons]
  | cons entry entries ih =>
    rw [put]
    split
    · next hentry =>
      subst hentry
      rw [find?_cons, find?_cons]
      split <;> rfl
    · next hentry =>
      rw [find?_cons, find?_cons, ih]
      split
      · next hk =>
        subst hk
        rw [if_neg hentry]
      · rfl

theorem find?_putLast (entries : Entries) (key : String) (node : Node) (k : String) :
    (entries.putLast key node).find? k = if k = key then some node else entries.find? k := by
  rw [putLast]
  induction entries with
  | nil => exact find?_cons (key, node) [] k
  | cons entry entries ih =>
    by_cases hentry : entry.1 = key
    · rw [List.filter_cons_of_neg (by simpa using hentry), ih, find?_cons]
      split
      · rfl
      · next hk => rw [if_neg fun h => hk (h.trans hentry)]
    · rw [List.filter_cons_of_pos (by simpa using hentry), List.cons_append, find?_cons, ih,
        find?_cons]
      by_cases hk : k = entry.1
      · rw [if_pos hk, if_neg fun h => hentry (hk.symm.trans h), if_pos hk]
      · simp only [if_neg hk]

/-- The keys of a table. -/
def keys (entries : Entries) : List String := entries.map (·.1)

theorem mem_of_find? {entries : Entries} {key : String} {node : Node}
    (h : entries.find? key = some node) : (key, node) ∈ entries := by
  induction entries with
  | nil => cases h
  | cons entry entries ih =>
    rw [find?_cons] at h
    split at h
    · next hk =>
      obtain rfl := Option.some.inj h
      simp [hk]
    · exact List.mem_cons_of_mem _ (ih h)

theorem mem_put {entries : Entries} {key : String} {node : Node} {entry : String × Node}
    (h : entry ∈ entries.put key node) : entry = (key, node) ∨ entry ∈ entries := by
  induction entries with
  | nil => exact .inl (List.mem_singleton.mp h)
  | cons other entries ih =>
    rw [put] at h
    split at h
    · exact (List.mem_cons.mp h).imp_right (List.mem_cons_of_mem _)
    · obtain rfl | h := List.mem_cons.mp h
      · exact .inr List.mem_cons_self
      · exact (ih h).imp_right (List.mem_cons_of_mem _)

theorem nodup_put {entries : Entries} (h : entries.keys.Nodup) (key : String) (node : Node) :
    (entries.put key node).keys.Nodup := by
  induction entries with
  | nil => simp [put, keys]
  | cons entry entries ih =>
    obtain ⟨hentry, hentries⟩ := List.nodup_cons.mp h
    rw [put]
    split
    · next hkey => exact List.nodup_cons.mpr ⟨hkey ▸ hentry, hentries⟩
    · next hkey =>
      refine List.nodup_cons.mpr ⟨fun hmem => ?_, ih hentries⟩
      obtain ⟨other, hother, heq⟩ := List.mem_map.mp hmem
      obtain rfl | hother := mem_put hother
      · exact hkey heq.symm
      · exact hentry (heq ▸ List.mem_map_of_mem hother)

theorem keys_putLast (entries : Entries) (key : String) (node : Node) :
    (entries.putLast key node).keys = entries.keys.filter (fun k => k ≠ key) ++ [key] := by
  simp [putLast, keys, List.filter_map, Function.comp_def]

theorem mem_putLast {entries : Entries} {key : String} {node : Node} {entry : String × Node}
    (h : entry ∈ entries.putLast key node) : entry = (key, node) ∨ entry ∈ entries :=
  (List.mem_append.mp h).symm.imp List.mem_singleton.mp fun hkept => (List.mem_filter.mp hkept).1

theorem nodup_putLast {entries : Entries} (h : entries.keys.Nodup) (key : String) (node : Node) :
    (entries.putLast key node).keys.Nodup := by
  rw [keys_putLast]
  exact (h.filter _).append (List.nodup_singleton key) (by simp)

end Entries

/-! ## Properties that last -/

theorem satisfiesM_unless {α : Type} {p : α → Prop} {refused : Prop} [Decidable refused]
    {x : Option α} (h : SatisfiesM p x) : SatisfiesM p (if refused then none else x) := by
  split
  · simp
  · exact h

/-- A property of tables, and of what stands at their keys, that lasts while they grow. -/
structure Growing (ok : Node → Prop) (fine : Entries → Prop) : Prop where
  nil : fine []
  find : ∀ {entries : Entries} {key : String} {node : Node}, fine entries →
    entries.find? key = some node → ok node
  put : ∀ {entries : Entries} {node : Node} (key : String), fine entries → ok node →
    fine (entries.put key node)
  putLast : ∀ {entries : Entries} {node : Node} (key : String), fine entries → ok node →
    fine (entries.putLast key node)
  table : ∀ {origin : Origin} {entries : Entries}, ok (.table origin entries) ↔ fine entries
  tables : ∀ {elements : List Entries}, ok (.tables elements) ↔ ∀ entries ∈ elements, fine entries

namespace Growing

variable {ok : Node → Prop} {fine : Entries → Prop} (h : Growing ok fine)
include h

/-- **A change in the table at a path** keeps what the change keeps. -/
theorem changeAt {dotted : Bool} {change : Change}
    (hchange : ∀ origin entries, fine entries → SatisfiesM fine (change origin entries))
    (path : List String) (origin : Origin) (entries : Entries) (hentries : fine entries) :
    SatisfiesM fine (changeAt dotted change path origin entries) := by
  induction path generalizing origin entries with
  | nil => exact hchange origin entries hentries
  | cons key path ih =>
    rw [Toml.changeAt]
    cases hfind : entries.find? key with
    | none =>
      exact .bind (ih _ _ h.nil) fun _ hinner => .pure (h.put key hentries (h.table.mpr hinner))
    | some node =>
      have hnode := h.find hentries hfind
      cases node with
      | value => simp
      | table =>
        exact satisfiesM_unless (.bind (ih _ _ (h.table.mp hnode)) fun _ hinner =>
          .pure (h.put key hentries (h.table.mpr hinner)))
      | tables elements =>
        cases elements with
        | nil => simp
        | cons last earlier =>
          obtain ⟨hlast, hearlier⟩ := List.forall_mem_cons.mp (h.tables.mp hnode)
          exact .bind (ih _ _ hlast) fun _ hinner => .pure
            (h.put key hentries (h.tables.mpr (List.forall_mem_cons.mpr ⟨hinner, hearlier⟩)))

theorem openTable (key : String) (origin : Origin) (entries : Entries) (hentries : fine entries) :
    SatisfiesM fine (openTable key origin entries) := by
  unfold Toml.openTable
  split
  · exact .pure (h.putLast key hentries (h.table.mpr h.nil))
  · next inner hfind =>
    exact .pure (h.putLast key hentries (h.table.mpr (h.table.mp (h.find hentries hfind))))
  · simp

theorem openElement (key : String) (origin : Origin) (entries : Entries)
    (hentries : fine entries) : SatisfiesM fine (openElement key origin entries) := by
  unfold Toml.openElement
  split
  · exact .pure (h.put key hentries (h.tables.mpr (by simpa using h.nil)))
  · next elements hfind =>
    exact .pure (h.put key hentries (h.tables.mpr
      (List.forall_mem_cons.mpr ⟨h.nil, h.tables.mp (h.find hentries hfind)⟩)))
  · simp

theorem putValue {v : Value} (hv : ok (.value v)) (dotted : Bool) (key : String) (origin : Origin)
    (entries : Entries) (hentries : fine entries) :
    SatisfiesM fine (putValue dotted key v origin entries) := by
  refine satisfiesM_unless ?_
  split
  · exact .pure (h.put key hentries hv)
  · simp

theorem assign {v : Value} (hv : ok (.value v)) (path : List String) (origin : Origin)
    (entries : Entries) (hentries : fine entries) :
    SatisfiesM fine (assign path v origin entries) := by
  unfold Toml.assign
  split
  · simp
  · exact h.changeAt (h.putValue hv _ _) _ _ _ hentries

theorem changeParent {change : String → Change}
    (hchange : ∀ key origin entries, fine entries → SatisfiesM fine (change key origin entries))
    (path : List String) {entries : Entries} (hentries : fine entries) :
    SatisfiesM fine (changeParent change path entries) := by
  unfold Toml.changeParent
  split
  · simp
  · exact h.changeAt (hchange _) _ _ _ hentries

/-- **A statement keeps the property**, if the value in it has it. -/
theorem add {d : Document} (hd : fine d.entries) {s : Statement}
    (hs : ∀ path v, s = .assignment path v → ok (.value v)) :
    SatisfiesM (fun d => fine d.entries) (d.add s) := by
  cases s with
  | tableHeader path => exact .map (h.changeParent h.openTable path hd) id
  | elementHeader path => exact .map (h.changeParent h.openElement path hd) id
  | assignment path v => exact .map (h.changeAt (h.assign (hs path v rfl) path) _ _ _ hd) id

/-- **A whole file has the property**, if the values in its statements have it. -/
theorem statements {statements : List Statement}
    (hvalues : ∀ s ∈ statements, ∀ path v, s = .assignment path v → ok (.value v)) :
    SatisfiesM (fun d => fine d.entries) (statements.foldlM Document.add {}) :=
  List.satisfiesM_foldlM h.nil fun _ hd s hs => h.add hd (hvalues s hs)

end Growing

/-! ## Keys are distinct -/

/-- **No table behind a node has a key twice.** -/
inductive Node.Distinct : Node → Prop where
  | value (v : Value) : Distinct (.value v)
  | table {origin : Origin} {entries : Entries} (hkeys : entries.keys.Nodup)
    (h : ∀ entry ∈ entries, Distinct entry.2) : Distinct (.table origin entries)
  | tables {elements : List Entries} (hkeys : ∀ entries ∈ elements, entries.keys.Nodup)
    (h : ∀ entries ∈ elements, ∀ entry ∈ entries, Distinct entry.2) : Distinct (.tables elements)

namespace Entries

/-- No table in a table, itself included, has a key twice. -/
def Distinct (entries : Entries) : Prop :=
  entries.keys.Nodup ∧ ∀ entry ∈ entries, entry.2.Distinct

end Entries

theorem growing_distinct : Growing Node.Distinct Entries.Distinct where
  nil := by simp [Entries.Distinct, Entries.keys]
  find hentries hfind := hentries.2 _ (Entries.mem_of_find? hfind)
  put key hentries hnode := ⟨Entries.nodup_put hentries.1 key _, fun entry hentry => by
    obtain rfl | hentry := Entries.mem_put hentry
    · exact hnode
    · exact hentries.2 entry hentry⟩
  putLast key hentries hnode := ⟨Entries.nodup_putLast hentries.1 key _, fun entry hentry => by
    obtain rfl | hentry := Entries.mem_putLast hentry
    · exact hnode
    · exact hentries.2 entry hentry⟩
  table := ⟨fun | .table hkeys h => ⟨hkeys, h⟩, fun h => .table h.1 h.2⟩
  tables := ⟨fun | .tables hkeys h => fun entries hmem => ⟨hkeys entries hmem, h entries hmem⟩,
    fun h => .tables (fun entries hmem => (h entries hmem).1) fun entries hmem => (h entries hmem).2⟩

end DeflateEcho.Toml
