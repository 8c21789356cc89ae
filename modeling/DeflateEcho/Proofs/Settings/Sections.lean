import Mathlib
import DeflateEcho.Settings.FileSettings

/-!
# Proofs/Settings/Sections — what a section says, key by key

A section is read from its keys in the order in which they stand.  As no key stands there twice, the
order does not matter: each setting is what is read at its own key, or what it was before if the key
is not there (`readAt`).  What a table still has to give to a section is an invariant of reading it:
one key gives its part, and the rest of the table gives the rest (`foldlM_of_step`).
-/

namespace DeflateEcho.Settings

open Toml (Value)

/-! ## One key -/

section Keys

variable {α : Type} (read : Value → Except TypeError α) (absent : α)

/-- **What is read at a key** of a table, or what is there in its absence. -/
def readAt (entries : List (String × Value)) (key : String) : Except TypeError α :=
  (entries.lookup key).elim (.ok absent) read

theorem readAt_cons (entry : String × Value) (entries : List (String × Value)) (key : String) :
    readAt read absent (entry :: entries) key =
      if key = entry.1 then read entry.2 else readAt read absent entries key := by
  rw [readAt, List.lookup_cons]
  by_cases hkey : key = entry.1
  · simp [hkey]
  · rw [if_neg hkey, beq_false_of_ne hkey]
    rfl

theorem readAt_of_notMem {entries : List (String × Value)} {key : String}
    (h : key ∉ entries.map (·.1)) : readAt read absent entries key = .ok absent := by
  have hlookup : entries.lookup key = none := by
    refine List.lookup_eq_none_iff.mpr fun entry hentry => bne_iff_ne.mpr ?_
    rintro rfl
    exact h (List.mem_map_of_mem hentry)
  rw [readAt, hlookup, Option.elim_none]

end Keys

/-! ## All keys -/

section Entries

variable {σ ε : Type} {set : σ → String × Value → Except ε σ} {s last : σ}
  {entries : List (String × Value)}

/-- **All of a table is taken over** if each key can be, and leaves what the keys behind it need. -/
theorem foldlM_of_step (Rest : List (String × Value) → σ → Prop)
    (hnil : ∀ s, Rest [] s → s = last)
    (hcons : ∀ entry entries s, entry.1 ∉ entries.map (·.1) → Rest (entry :: entries) s →
      ∃ s', set s entry = .ok s' ∧ Rest entries s')
    (hkeys : (entries.map (·.1)).Nodup) (h : Rest entries s) :
    entries.foldlM set s = .ok last := by
  induction entries generalizing s with
  | nil => exact congrArg Except.ok (hnil s h)
  | cons entry entries ih =>
    obtain ⟨hfresh, hrest⟩ := List.nodup_cons.mp hkeys
    obtain ⟨s', hset, hs'⟩ := hcons entry entries s hfresh h
    rw [List.foldlM_cons, hset]
    exact ih hrest hs'

/-- Where all of a table was taken over, each key was. -/
theorem exists_of_foldlM (h : entries.foldlM set s = .ok last) :
    ∀ entry ∈ entries, ∃ s s', set s entry = .ok s' := by
  induction entries generalizing s with
  | nil => simp
  | cons entry entries ih =>
    rw [List.foldlM_cons] at h
    cases hset : set s entry with
    | error error =>
      rw [hset] at h
      cases h
    | ok s' =>
      rw [hset] at h
      exact List.forall_mem_cons.mpr ⟨⟨s, s', hset⟩, ih h⟩

end Entries

/-! ## The sections -/

/-- **What a server section is read from**: a table, over what it was before. -/
structure ServerSection.ReadFrom (result : ServerSection) (entries : List (String × Value))
    (s : ServerSection) : Prop where
  listen : readAt string s.listen entries "listen" = .ok result.listen
  concurrent : readAt boolean s.concurrent entries "concurrent" = .ok result.concurrent
  maxSessions : readAt count s.maxSessions entries "max_sessions" = .ok result.maxSessions
  backlog : readAt signed32 s.backlog entries "backlog" = .ok result.backlog

theorem ServerSection.ReadFrom.step {result s : ServerSection} {entry : String × Value}
    {entries : List (String × Value)} (hfresh : entry.1 ∉ entries.map (·.1))
    (h : ReadFrom result (entry :: entries) s) :
    ∃ s', s.set entry.1 entry.2 = .ok s' ∧ ReadFrom result entries s' := by
  obtain ⟨key, v⟩ := entry
  obtain ⟨hlisten, hconcurrent, hmaxSessions, hbacklog⟩ := h
  rw [readAt_cons] at hlisten hconcurrent hmaxSessions hbacklog
  unfold ServerSection.set
  dsimp only at hfresh hlisten hconcurrent hmaxSessions hbacklog ⊢
  split
  · next hkey =>
    subst hkey
    rw [if_pos rfl] at hlisten
    rw [if_neg (by decide)] at hconcurrent hmaxSessions hbacklog
    exact ⟨{ s with listen := result.listen }, by rw [hlisten]; rfl,
      readAt_of_notMem _ _ hfresh, hconcurrent, hmaxSessions, hbacklog⟩
  split
  · next hkey =>
    subst hkey
    rw [if_pos rfl] at hconcurrent
    rw [if_neg (by decide)] at hlisten hmaxSessions hbacklog
    exact ⟨{ s with concurrent := result.concurrent }, by rw [hconcurrent]; rfl,
      hlisten, readAt_of_notMem _ _ hfresh, hmaxSessions, hbacklog⟩
  split
  · next hkey =>
    subst hkey
    rw [if_pos rfl] at hmaxSessions
    rw [if_neg (by decide)] at hlisten hconcurrent hbacklog
    exact ⟨{ s with maxSessions := result.maxSessions }, by rw [hmaxSessions]; rfl,
      hlisten, hconcurrent, readAt_of_notMem _ _ hfresh, hbacklog⟩
  split
  · next hkey =>
    subst hkey
    rw [if_pos rfl] at hbacklog
    rw [if_neg (by decide)] at hlisten hconcurrent hmaxSessions
    exact ⟨{ s with backlog := result.backlog }, by rw [hbacklog]; rfl,
      hlisten, hconcurrent, hmaxSessions, readAt_of_notMem _ _ hfresh⟩
  · next hl hc hm hb =>
    rw [if_neg (Ne.symm hl)] at hlisten
    rw [if_neg (Ne.symm hc)] at hconcurrent
    rw [if_neg (Ne.symm hm)] at hmaxSessions
    rw [if_neg (Ne.symm hb)] at hbacklog
    exact ⟨s, rfl, hlisten, hconcurrent, hmaxSessions, hbacklog⟩

/-- **A server section is what is read at its keys.** -/
theorem ServerSection.ofTable_eq {entries : List (String × Value)} {result : ServerSection}
    (hkeys : (entries.map (·.1)).Nodup) (h : ReadFrom result entries {}) :
    ofTable entries = .ok result := by
  refine foldlM_of_step (ReadFrom result) (fun s hs => ?_)
    (fun entry entries s hfresh h => h.step hfresh) hkeys h
  cases s
  cases result
  obtain ⟨hlisten, hconcurrent, hmaxSessions, hbacklog⟩ := hs
  cases hlisten
  cases hconcurrent
  cases hmaxSessions
  cases hbacklog
  rfl

/-- **A logging section is what is read at its key.** -/
theorem LoggingSection.ofTable_eq {entries : List (String × Value)} {result : LoggingSection}
    (hkeys : (entries.map (·.1)).Nodup)
    (h : readAt string ({} : LoggingSection).level entries "level" = .ok result.level) :
    ofTable entries = .ok result := by
  refine foldlM_of_step
    (fun entries s => readAt string s.level entries "level" = .ok result.level)
    (fun s hs => ?_) (fun entry entries s hfresh h => ?_) hkeys h
  · cases s
    cases result
    cases hs
    rfl
  · obtain ⟨key, v⟩ := entry
    rw [readAt_cons] at h
    unfold LoggingSection.set
    dsimp only at hfresh h ⊢
    split
    · next hkey =>
      subst hkey
      rw [if_pos rfl] at h
      exact ⟨result, by rw [h]; rfl, readAt_of_notMem _ _ hfresh⟩
    · next hkey =>
      rw [if_neg (Ne.symm hkey)] at h
      exact ⟨s, rfl, h⟩

/-! ## Both sections -/

theorem FileSettings.set_server (settings : FileSettings) (v : Value) :
    settings.set "server" v =
      (ServerSection.ofValue v).map fun server => { settings with server } := if_pos rfl

theorem FileSettings.set_logging (settings : FileSettings) (v : Value) :
    settings.set "logging" v =
      (LoggingSection.ofValue v).map fun logging => { settings with logging } :=
  (if_neg (by decide)).trans (if_pos rfl)

/-- **The settings are what is read at the two sections.** -/
theorem FileSettings.ofTable_eq {entries : List (String × Value)} {result : FileSettings}
    (hkeys : (entries.map (·.1)).Nodup)
    (hserver : readAt ServerSection.ofValue {} entries "server" = .ok result.server)
    (hlogging : readAt LoggingSection.ofValue {} entries "logging" = .ok result.logging) :
    ofTable entries = .ok result := by
  refine foldlM_of_step
    (fun entries s =>
      readAt ServerSection.ofValue s.server entries "server" = .ok result.server ∧
        readAt LoggingSection.ofValue s.logging entries "logging" = .ok result.logging)
    (fun s hs => ?_) (fun entry entries s hfresh h => ?_) hkeys ⟨hserver, hlogging⟩
  · cases s
    cases result
    obtain ⟨hserver, hlogging⟩ := hs
    cases hserver
    cases hlogging
    rfl
  · obtain ⟨key, v⟩ := entry
    obtain ⟨hserver, hlogging⟩ := h
    rw [readAt_cons] at hserver hlogging
    unfold FileSettings.set
    dsimp only at hfresh hserver hlogging ⊢
    split
    · next hkey =>
      subst hkey
      rw [if_pos rfl] at hserver
      rw [if_neg (by decide)] at hlogging
      exact ⟨{ s with server := result.server }, by rw [hserver]; rfl,
        readAt_of_notMem _ _ hfresh, hlogging⟩
    split
    · next hkey =>
      subst hkey
      rw [if_pos rfl] at hlogging
      rw [if_neg (by decide)] at hserver
      exact ⟨{ s with logging := result.logging }, by rw [hlogging]; rfl,
        hserver, readAt_of_notMem _ _ hfresh⟩
    · next hs hl =>
      rw [if_neg (Ne.symm hs)] at hserver
      rw [if_neg (Ne.symm hl)] at hlogging
      exact ⟨s, rfl, hserver, hlogging⟩

/-- A table without the keys of a section is a section of defaults. -/
theorem readAt_section {α : Type} (ofTable : List (String × Value) → Except TypeError α)
    (ofValue : Value → Except TypeError α) {absent : α}
    (hofValue : ∀ values, ofValue (.table values) = ofTable values)
    (habsent : ofTable [] = .ok absent) {entries values : List (String × Value)} {key : String}
    (h : (entries.lookup key).getD (.table []) = .table values) :
    readAt ofValue absent entries key = ofTable values := by
  rw [readAt]
  cases hlookup : entries.lookup key with
  | none =>
    rw [hlookup] at h
    obtain rfl := Value.table.inj h
    exact habsent.symm
  | some v =>
    rw [hlookup] at h
    rw [Option.elim_some, show v = .table values from h, hofValue]

/-- No section that is taken over is a list of tables. -/
theorem FileSettings.lookup_ne_tables {entries : List (String × Value)} {result : FileSettings}
    (h : ofTable entries = .ok result) {key : String} (hkey : key = "server" ∨ key = "logging")
    (values : List (String × Value)) (items : List Value) :
    entries.lookup key ≠ some (.array (.table values :: items)) := by
  intro hlookup
  obtain ⟨before, behind, rfl, -⟩ := List.lookup_eq_some_iff.mp hlookup
  obtain ⟨s, s', hset⟩ := exists_of_foldlM h _ (List.mem_append_right _ List.mem_cons_self)
  obtain rfl | rfl := hkey
  · cases hset
  · cases hset

end DeflateEcho.Settings
