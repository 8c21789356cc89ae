import Mathlib
import DeflateEcho.Proofs.Settings.Spelling
import DeflateEcho.Proofs.Toml.Exchange

/-!
# Proofs/Settings/Positions — a section by position is the section by key

A section that is an array gives its settings by position.  `keyed` puts each item under the key
that its position stands for, and leaves out what has no position.  An array is read as the table of
its keyed items is, value for value and error for error (`ServerSection.ofArray_eq`), so a file gives
the same settings in both ways, whatever notation its table is in; and where the file writes the
array out, the inline table may be written in its place.
-/

namespace DeflateEcho.Settings

open Toml

/-! ## Positions -/

/-- The settings of a section, by position. -/
def inOrder (home : String) : List Setting :=
  [.listen, .concurrent, .maxSessions, .backlog, .level].filter fun s => s.home = home

/-- **Items under the keys that their positions stand for**, as far as these go. -/
def keyed {α : Type} (home : String) (items : List α) : List (String × α) :=
  ((inOrder home).map Setting.key).zip items

example : keyed "server" [0, 1, 2, 3, 4, 5] =
    [("listen", 0), ("concurrent", 1), ("max_sessions", 2), ("backlog", 3)] := rfl

theorem map_keyed {α β : Type} (f : α → β) (home : String) (items : List α) :
    (keyed home items).map (Prod.map id f) = keyed home (items.map f) := by
  simp [keyed, List.zip_map_right]

/-- What comes behind the last position is left out. -/
theorem keyed_take {α : Type} (home : String) (items : List α) :
    keyed home (items.take (inOrder home).length) = keyed home items := by
  have hzip : ∀ (keys : List String) (items : List α),
      keys.zip (items.take keys.length) = keys.zip items := fun keys items => by
    induction keys generalizing items with
    | nil => rfl
    | cons key keys ih => cases items <;> simp [ih]
  simpa [keyed] using hzip ((inOrder home).map Setting.key) items

theorem nodup_keyed {α : Type} (home : String) (items : List α) :
    ((keyed home items).map (·.1)).Nodup := by
  have hkeys : ([.listen, .concurrent, .maxSessions, .backlog, .level].map Setting.key).Nodup := by
    decide
  have hsublist : ((keyed home items).map (·.1)).Sublist ((inOrder home).map Setting.key) := by
    rw [keyed, List.zip_eq_zip_take_min, List.map_fst_zip (by simp)]
    exact List.take_sublist _ _
  exact hkeys.sublist (hsublist.trans (List.filter_sublist.map _))

theorem mem_of_mem_keyed {α : Type} {home : String} {items : List α} {entry : String × α}
    (h : entry ∈ keyed home items) : entry.2 ∈ items := (List.of_mem_zip h).2

/-! ## Sections -/

/-- A key takes over the item at its position, if there is one. -/
theorem ServerSection.foldlM_zip_cons {α : Type} (read : Value → Except TypeError α)
    (take : α → ServerSection) {absent : α} {key : String} {s : ServerSection}
    (hset : ∀ v, s.set key v = (read v).map take) (habsent : take absent = s)
    (keys : List String) (items : List Value) :
    ((key :: keys).zip items).foldlM (fun s (key, v) => s.set key v) s =
      (ofArray.next read absent items).bind fun next =>
        (keys.zip next.2).foldlM (fun s (key, v) => s.set key v) (take next.1) := by
  cases items with
  | nil =>
    subst habsent
    rw [ofArray.next]
    simp [Except.bind]
  | cons v items =>
    change (s.set key v).bind _ = _
    rw [hset, ofArray.next]
    cases read v <;> rfl

/-- **A server section by position is the one by key.** -/
theorem ServerSection.ofArray_eq (items : List Value) :
    ofArray items = ofTable (keyed "server" items) := by
  change _ = (["listen", "concurrent", "max_sessions", "backlog"].zip items).foldlM _ _
  rw [foldlM_zip_cons string (fun listen => { listen }) (fun _ => rfl) rfl]
  refine congrArg (Except.bind _) (funext fun (listen, items) => ?_)
  rw [foldlM_zip_cons boolean (fun concurrent => { listen, concurrent }) (fun _ => rfl) rfl]
  refine congrArg (Except.bind _) (funext fun (concurrent, items) => ?_)
  rw [foldlM_zip_cons count (fun maxSessions => { listen, concurrent, maxSessions })
    (fun _ => rfl) rfl]
  refine congrArg (Except.bind _) (funext fun (maxSessions, items) => ?_)
  rw [foldlM_zip_cons signed32 (fun backlog => { listen, concurrent, maxSessions, backlog })
    (fun _ => rfl) rfl]
  rfl

theorem LoggingSection.ofArray_eq (items : List Value) :
    ofArray items = ofTable (keyed "logging" items) := by
  rcases items with _ | ⟨level, items⟩
  · rfl
  · change _ = (set {} "level" level).bind .ok
    rw [ofArray, set, if_pos rfl]
    cases string level <;> rfl

/-! ## Tables of a file -/

/-- **A section by position, recast by key**; all else stays. -/
inductive Recast : String × Value → String × Value → Prop where
  | same (entry : String × Value) : Recast entry entry
  | keyed (s : Setting) (items : List Value) :
    Recast (s.home, .array items) (s.home, .table (keyed s.home items))

/-- Entries that mean the same to the settings. -/
def SameSetting (entry other : String × Value) : Prop :=
  ∀ settings : FileSettings, settings.set entry.1 entry.2 = settings.set other.1 other.2

theorem sameSetting_keyed (s : Setting) (items : List Value) :
    SameSetting (s.home, .array items) (s.home, .table (keyed s.home items)) := by
  intro settings
  cases s with
  | level =>
    change settings.set "logging" (.array items) =
      settings.set "logging" (.table (keyed "logging" items))
    rw [settings.set_logging, settings.set_logging]
    exact congrArg (Except.map _) (LoggingSection.ofArray_eq items)
  | _ =>
    change settings.set "server" (.array items) =
      settings.set "server" (.table (keyed "server" items))
    rw [settings.set_server, settings.set_server]
    exact congrArg (Except.map _) (ServerSection.ofArray_eq items)

/-- Arrays that agree at all positions mean the same. -/
theorem sameSetting_take (s : Setting) {items others : List Value}
    (h : items.take (inOrder s.home).length = others.take (inOrder s.home).length) :
    SameSetting (s.home, .array items) (s.home, .array others) := by
  intro settings
  rw [sameSetting_keyed s items, sameSetting_keyed s others, ← keyed_take, h, keyed_take]

theorem Recast.sameSetting {entry other : String × Value} (h : Recast entry other) :
    SameSetting entry other := by
  cases h with
  | same => exact fun _ => rfl
  | keyed s items => exact sameSetting_keyed s items

theorem SameSetting.of_exchanged {key : String} {v w : Value} (h : SameSetting (key, v) (key, w))
    {entry other : String × Value} (hentry : Exchanged key v w entry other) :
    SameSetting entry other := by
  obtain rfl | ⟨rfl, rfl⟩ := hentry
  · exact fun _ => rfl
  · exact h

theorem FileSettings.ofTable_congr {table table' : List (String × Value)}
    (h : List.Forall₂ SameSetting table table') : ofTable table = ofTable table' := by
  rw [ofTable, ofTable]
  generalize ({} : FileSettings) = settings
  induction h generalizing settings with
  | nil => rfl
  | cons hentry _ ih =>
    change (settings.set _ _).bind _ = (settings.set _ _).bind _
    rw [hentry settings]
    exact congrArg (Except.bind _) (funext ih)

/-! ## Texts of a file -/

/-- A section by key, as an inline table. -/
def keyedTerm (home : String) (terms : List Term) : Term :=
  .inline ((keyed home terms).map fun entry => ([entry.1], entry.2))

section Terms

variable {depth : Nat} {terms : List Term} (h : ∀ t ∈ terms, ∃ v, t.read depth = some v)
include h

theorem read_array :
    (Term.array terms).read (depth + 1) = some (.array (terms.map (Term.value depth))) := by
  have hread : ∀ t ∈ terms, t.read depth = some (t.value depth) := fun t ht => by
    obtain ⟨v, hv⟩ := h t ht
    rw [hv, Term.value_eq hv]
  rw [Term.read, mapM_eq_some hread, Option.map_some]

theorem read_keyedTerm (home : String) :
    (keyedTerm home terms).read (depth + 1) =
      some (.table (keyed home (terms.map (Term.value depth)))) := by
  have hread : ∀ entry ∈ (keyed home terms).map fun entry => ([entry.1], entry.2),
      readEntry (Term.read depth) entry = some (entry.1, entry.2.value depth) := by
    intro entry hentry
    obtain ⟨pair, hpair, rfl⟩ := List.mem_map.mp hentry
    obtain ⟨v, hv⟩ := h _ (mem_of_mem_keyed hpair)
    exact readEntry_eq (by simp [maxDepth]) hv
  have htable := tableOf_single (nodup_keyed home (terms.map (Term.value depth)))
  rw [← map_keyed, List.map_map] at htable
  rw [keyedTerm, Term.read, mapM_eq_some hread, Option.bind_some, List.map_map, ← map_keyed]
  exact congrArg (Option.map Value.table) htable

end Terms

/-! ## Files -/

theorem FileSettings.ofBytes_congr {r : String × Value → String × Value → Prop}
    (hr : ∀ entry other, r entry other → SameSetting entry other) {bytes bytes' : Bytes}
    {text text' : List Char} (hbytes : Text.Utf8.decode? bytes = some text)
    (hbytes' : Text.Utf8.decode? bytes' = some text')
    (h : Option.Rel (List.Forall₂ r) (parse (String.ofList text)) (parse (String.ofList text')))
    (path : String) : ofBytes path bytes = ofBytes path bytes' := by
  rw [ofBytes, ofBytes, hbytes, hbytes']
  dsimp only
  generalize parse (String.ofList text) = table?, parse (String.ofList text') = table?' at h ⊢
  cases h with
  | none => rfl
  | some h => exact congrArg (Except.mapError _) (ofTable_congr (h.imp hr))

theorem FileSettings.ofBytes_exchange {bytes bytes' : Bytes} {text text' : List Char}
    (hbytes : Text.Utf8.decode? bytes = some text) (hbytes' : Text.Utf8.decode? bytes' = some text')
    {before behind : List (Line Term)} (hbefore : ∀ line ∈ before, line.headed = none)
    {key : String} {t u : Term} {v w : Value} (ht : t.read (maxDepth - 1) = some v)
    (hu : u.read (maxDepth - 1) = some w) (hsame : SameSetting (key, v) (key, w))
    (htext : FileText (before ++ .assignment [key] t :: behind) text)
    (htext' : FileText (before ++ .assignment [key] u :: behind) text') (path : String) :
    ofBytes path bytes = ofBytes path bytes' := by
  refine ofBytes_congr (fun _ _ => hsame.of_exchanged) hbytes hbytes' ?_ path
  rw [parse_eq htext, parse_eq htext']
  exact readFile_exchange hbefore key ht hu behind

/-- **A section by position loads as the section by key does**, to the same settings or the same
error: whatever notation the section by key is in, and in particular where its inline table is
written in the place of the array.  **What comes behind the last position counts for nothing.** -/
theorem ofBytes_of_positions (path : String) {bytes bytes' : Bytes} {text text' : List Char}
    (hbytes : Text.Utf8.decode? bytes = some text)
    (hbytes' : Text.Utf8.decode? bytes' = some text') :
    (∀ table table', parse (String.ofList text) = some table →
      parse (String.ofList text') = some table' → List.Forall₂ Recast table table' →
      FileSettings.ofBytes path bytes = FileSettings.ofBytes path bytes') ∧
    (∀ (s : Setting) (terms : List Term) (before behind : List (Line Term)),
      (∀ line ∈ before, line.headed = none) →
      (∀ t ∈ terms, ∃ v, t.read (maxDepth - 2) = some v) →
      FileText (before ++ .assignment [s.home] (.array terms) :: behind) text →
      FileText (before ++ .assignment [s.home] (keyedTerm s.home terms) :: behind) text' →
      FileSettings.ofBytes path bytes = FileSettings.ofBytes path bytes') ∧
    (∀ (s : Setting) (terms others : List Term) (before behind : List (Line Term)),
      (∀ line ∈ before, line.headed = none) →
      (∀ t ∈ terms ++ others, ∃ v, t.read (maxDepth - 2) = some v) →
      terms.take (inOrder s.home).length = others.take (inOrder s.home).length →
      FileText (before ++ .assignment [s.home] (.array terms) :: behind) text →
      FileText (before ++ .assignment [s.home] (.array others) :: behind) text' →
      FileSettings.ofBytes path bytes = FileSettings.ofBytes path bytes') := by
  refine ⟨fun table table' htable htable' hrecast => ?_,
    fun s terms before behind hbefore hterms htext htext' => ?_,
    fun s terms others before behind hbefore hterms htake htext htext' => ?_⟩
  · refine FileSettings.ofBytes_congr (fun _ _ => Recast.sameSetting) hbytes hbytes' ?_ path
    rw [htable, htable']
    exact .some hrecast
  · exact FileSettings.ofBytes_exchange hbytes hbytes' hbefore (read_array hterms)
      (read_keyedTerm hterms s.home) (sameSetting_keyed s _) htext htext' path
  · obtain ⟨hterms, hothers⟩ := List.forall_mem_append.mp hterms
    refine FileSettings.ofBytes_exchange hbytes hbytes' hbefore (read_array hterms)
      (read_array hothers) (sameSetting_take s ?_) htext htext' path
    rw [← List.map_take, ← List.map_take, htake]

theorem ofBytes_of_positions_swapped :
    FileSettings.ofBytes "a" "server=[true,'x']".toUTF8.toList =
      FileSettings.ofBytes "a" "[server]\nlisten=true\nconcurrent='x'".toUTF8.toList ∧
    FileSettings.ofBytes "a" "server=[true,'x']".toUTF8.toList =
      FileSettings.ofBytes "a" "server=\x7blisten=true,concurrent='x'\x7d".toUTF8.toList ∧
    FileSettings.ofBytes "a" "logging=['x',true]".toUTF8.toList =
      FileSettings.ofBytes "a" "logging=['x']".toUTF8.toList := by
  have hserver : PathText ["server"] "server".toList := pathText_bare (by simp) rfl
  have hlogging : PathText ["logging"] "logging".toList := pathText_bare (by simp) rfl
  have hlisten : PathText ["listen"] "listen".toList := pathText_bare (by simp) rfl
  have hconcurrent : PathText ["concurrent"] "concurrent".toList := pathText_bare (by simp) rfl
  have hx : Spelled (.scalar (.string "x")) ['\'', 'x', '\''] :=
    .scalar (.string (.literal (x := ['x']) (by simp [LiteralText, isPlain])))
  have htrue : Spelled (.scalar (.boolean true)) ['t', 'r', 'u', 'e'] := .scalar .true
  have hgap : Gap [] := .blank blank_nil
  have hread : ∀ t ∈ [Term.scalar (.boolean true), .scalar (.string "x")],
      ∃ v, t.read (maxDepth - 2) = some v := by simp [maxDepth, Term.read]
  have hitems : FileText ([] ++ .assignment ["server"]
      (.array [.scalar (.boolean true), .scalar (.string "x")]) :: []) "server=[true,'x']".toList :=
    .plain (.last blank_nil (.assignment (.mk hserver blank_nil
      (.array (.comma hgap htrue hgap (.last hgap hx hgap))))) (.blank blank_nil))
  have hkeyed : FileText ([] ++ .assignment ["server"]
      (keyedTerm "server" [.scalar (.boolean true), .scalar (.string "x")]) :: [])
      "server=\x7blisten=true,concurrent='x'\x7d".toList :=
    .plain (.last blank_nil (.assignment (.mk hserver blank_nil
      (.inline (.comma blank_nil (.mk hlisten blank_nil htrue) blank_nil
        (.last blank_nil (.mk hconcurrent blank_nil hx) blank_nil))))) (.blank blank_nil))
  have hheaded : FileText [.table ["server"], .assignment ["listen"] (.scalar (.boolean true)),
      .assignment ["concurrent"] (.scalar (.string "x"))]
      "[server]\nlisten=true\nconcurrent='x'".toList :=
    .plain (.line blank_nil (.table blank_nil hserver) (.blank blank_nil) .lf
      (.line blank_nil (.assignment (.mk hlisten blank_nil htrue)) (.blank blank_nil) .lf
        (.last blank_nil (.assignment (.mk hconcurrent blank_nil hx)) (.blank blank_nil))))
  have hlong : FileText ([] ++ .assignment ["logging"]
      (.array [.scalar (.string "x"), .scalar (.boolean true)]) :: [])
      "logging=['x',true]".toList :=
    .plain (.last blank_nil (.assignment (.mk hlogging blank_nil
      (.array (.comma hgap hx hgap (.last hgap htrue hgap))))) (.blank blank_nil))
  have hshort : FileText ([] ++ .assignment ["logging"] (.array [.scalar (.string "x")]) :: [])
      "logging=['x']".toList :=
    .plain (.last blank_nil (.assignment (.mk hlogging blank_nil (.array (.last hgap hx hgap))))
      (.blank blank_nil))
  refine ⟨?_, ?_, ?_⟩
  · refine (ofBytes_of_positions "a" (by decide +kernel) (by decide +kernel)).1 _ _
      ((parse_eq hitems).trans rfl) ((parse_eq hheaded).trans rfl)
      (.cons (.keyed .listen [.boolean true, .string "x"]) .nil)
  · exact (ofBytes_of_positions "a" (by decide +kernel) (by decide +kernel)).2.1 .listen
      [.scalar (.boolean true), .scalar (.string "x")] [] [] (by simp) hread hitems hkeyed
  · exact (ofBytes_of_positions "a" (by decide +kernel) (by decide +kernel)).2.2 .level
      [.scalar (.string "x"), .scalar (.boolean true)] [.scalar (.string "x")] [] [] (by simp)
      (by simp [maxDepth, Term.read]) rfl hlong hshort

end DeflateEcho.Settings
