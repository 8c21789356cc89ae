import Mathlib
import DeflateEcho.Proofs.Toml.Range
import DeflateEcho.Settings.Config

/-!
# Proofs/Settings/Sessions — how many sessions the settings allow

The number of sessions comes from the command line, which is read against a bound, or from a file,
whose whole numbers fit into 64 bits.  Each reader on the way may fail, so what it keeps is said of
its result if there is one, with `SatisfiesM`; reading goes on from left to right, and the bound is
an invariant of it.  In the end **the settings in force allow one session at least and fewer than
`2 ^ 64`** (`Config.maxSessions_of_load`).
-/

namespace DeflateEcho.Settings

/-! ## What may fail -/

section Failing

variable {ε α : Type} {p : α → Prop}

theorem satisfiesM_error {error : ε} : SatisfiesM p (Except.error error : Except ε α) := by
  simp [SatisfiesM_Except_eq]

theorem satisfiesM_mapError {ε' : Type} {x : Except ε α} (h : SatisfiesM p x) (f : ε → ε') :
    SatisfiesM p (x.mapError f) := by
  cases x with
  | error error => exact satisfiesM_error
  | ok a => exact .pure (SatisfiesM_Except_eq.mp h a rfl)

end Failing

/-! ## The command line -/

theorem decimalBelow_lt {bound n : Nat} (hn : n < bound) (digits : List Char) :
    SatisfiesM (· < bound) (decimalBelow bound n digits) := by
  induction digits generalizing n with
  | nil => exact .pure hn
  | cons c digits ih =>
    simp only [decimalBelow]
    split
    · split
      · next hnext => exact ih hnext
      · exact satisfiesM_error
    · exact satisfiesM_error

theorem numberBelow_lt {bound : Nat} (hbound : 0 < bound) (text : String) :
    SatisfiesM (· < bound) (numberBelow bound text) := by
  unfold numberBelow
  split
  · exact satisfiesM_error
  · exact satisfiesM_error
  · exact decimalBelow_lt hbound _
  · exact decimalBelow_lt hbound _

/-- If a number of sessions is given, it fits into 64 bits. -/
def Arguments.Fit (a : Arguments) : Prop := ∀ n ∈ a.maxSessions, n < 2 ^ 64

theorem Arguments.Fit.take {a : Arguments} (h : a.Fit) (o : CliOption) (value? : Option String) :
    SatisfiesM Fit (a.take o value?) := by
  unfold Arguments.take
  split
  · exact satisfiesM_error
  · exact satisfiesM_error
  · split
    · exact satisfiesM_error
    · exact .pure h
  · exact satisfiesM_error
  · split
    · exact satisfiesM_error
    · split
      · split
        · exact satisfiesM_error
        · exact .pure h
      · exact .pure h
      · exact .pure h
      · split
        · next n hn =>
          have hlt := SatisfiesM_Except_eq.mp (numberBelow_lt (by decide) _) n hn
          exact .pure (by simpa [Fit] using hlt)
        · exact satisfiesM_error

namespace Progress

/-- What has been taken over fits. -/
def Fit (p : Progress) : Prop := p.arguments.Fit

variable {p : Progress}

theorem Fit.settle (h : p.Fit) : SatisfiesM Fit p.settle := by
  unfold Progress.settle
  split
  · exact .pure h
  · exact .bind (Arguments.Fit.take h _ _) fun _ ha => .pure ha

theorem Fit.option (h : p.Fit) (o : CliOption) (attached? : Option String) :
    SatisfiesM Fit (p.option o attached?) := by
  refine .bind h.settle fun q hq => ?_
  split
  · exact .pure hq
  · exact .bind (Arguments.Fit.take hq _ _) fun _ ha => .pure ha

theorem Fit.letters (h : p.Fit) (cs : List Char) : SatisfiesM Fit (p.letters cs) := by
  induction cs generalizing p with
  | nil => exact .pure h
  | cons c cs ih =>
    unfold Progress.letters
    split
    · exact satisfiesM_error
    · split
      · exact h.option _ _
      · exact .bind (h.option _ _) fun _ hq => ih hq

theorem Fit.longName (h : p.Fit) (text : List Char) : SatisfiesM Fit (p.longName text) := by
  unfold Progress.longName
  dsimp only
  split
  · exact satisfiesM_error
  · split
    · exact h.option _ _
    · exact satisfiesM_error
  · exact h.option _ _

theorem Fit.plain (h : p.Fit) (argument : String) : SatisfiesM Fit (p.plain argument) := by
  unfold Progress.plain
  split
  · exact .pure h
  · exact satisfiesM_error

theorem Fit.next (h : p.Fit) (argument : String) : SatisfiesM Fit (p.next argument) := by
  unfold Progress.next
  split
  · exact satisfiesM_error
  · split
    · exact .pure h
    · exact h.longName _
    · exact h.letters _
    · exact h.plain _

end Progress

theorem Arguments.fit_of_parse (arguments : List String) :
    SatisfiesM Fit (Arguments.parse arguments) := by
  have hread : SatisfiesM Progress.Fit (arguments.foldlM Progress.next {}) :=
    List.satisfiesM_foldlM (by simp [Progress.Fit, Arguments.Fit]) fun _ hp argument _ =>
      hp.next argument
  exact .bind hread fun _ hp => .bind hp.settle fun _ hq => .pure hq

/-! ## The file -/

open Toml (Value)

theorem count_lt {v : Value} (h : v.Fits) : SatisfiesM (· < 2 ^ 63) (count v) := by
  cases h with
  | integer hrange =>
    simp only [count]
    split
    · exact .pure (by omega)
    · exact satisfiesM_error
  | _ => exact satisfiesM_error

namespace ServerSection

/-- The number of sessions fits into 63 bits. -/
def Fit (s : ServerSection) : Prop := s.maxSessions < 2 ^ 63

theorem fit_default : Fit {} := by simp [Fit]

theorem Fit.set {s : ServerSection} (h : s.Fit) (key : String) {v : Value} (hv : v.Fits) :
    SatisfiesM Fit (s.set key v) := by
  unfold ServerSection.set
  split
  · exact .map .trivial fun _ => h
  split
  · exact .map .trivial fun _ => h
  split
  · exact .map (count_lt hv) id
  split
  · exact .map .trivial fun _ => h
  · exact .pure h

theorem next_holds {α : Type} {read : Value → Except TypeError α} {absent : α}
    {items : List Value} {P : α → Prop} (habsent : P absent)
    (hread : ∀ v ∈ items, SatisfiesM P (read v)) :
    SatisfiesM (fun result => P result.1 ∧ ∀ v ∈ result.2, v ∈ items)
      (ofArray.next read absent items) := by
  cases items with
  | nil => exact .pure ⟨habsent, by simp⟩
  | cons v items =>
    exact .map (hread v (by simp)) fun ha => ⟨ha, fun _ hv => List.mem_cons_of_mem _ hv⟩

theorem fit_ofArray {items : List Value} (h : ∀ v ∈ items, v.Fits) :
    SatisfiesM Fit (ofArray items) := by
  refine .bind (next_holds trivial fun _ _ => .trivial) fun afterListen hlisten => ?_
  refine .bind (next_holds trivial fun _ _ => .trivial) fun afterMode hmode => ?_
  have hleft : ∀ v ∈ afterMode.2, v.Fits := fun v hv => h v (hlisten.2 v (hmode.2 v hv))
  refine .bind (next_holds fit_default fun v hv => count_lt (hleft v hv)) fun counted hcount => ?_
  refine .bind (next_holds trivial fun _ _ => .trivial) fun _ _ => ?_
  exact .pure hcount.1

theorem fit_ofValue {v : Value} (h : v.Fits) : SatisfiesM Fit (ofValue v) := by
  cases h with
  | table h =>
    exact List.satisfiesM_foldlM fit_default fun s hs entry hentry => hs.set _ (h entry hentry)
  | array h => exact fit_ofArray h
  | dateTime => exact .pure fit_default
  | _ => exact satisfiesM_error

end ServerSection

namespace FileSettings

/-- The number of sessions fits into 63 bits. -/
def Fit (s : FileSettings) : Prop := s.server.Fit

theorem Fit.set {s : FileSettings} (h : s.Fit) (key : String) {v : Value} (hv : v.Fits) :
    SatisfiesM Fit (s.set key v) := by
  unfold FileSettings.set
  split
  · exact .map (ServerSection.fit_ofValue hv) id
  split
  · exact .map .trivial fun _ => h
  · exact .pure h

theorem fit_ofTable {entries : List (String × Value)} (h : ∀ entry ∈ entries, entry.2.Fits) :
    SatisfiesM Fit (ofTable entries) :=
  List.satisfiesM_foldlM ServerSection.fit_default fun _ hs entry hentry =>
    hs.set _ (h entry hentry)

theorem fit_ofBytes (path : String) (bytes : Bytes) : SatisfiesM Fit (ofBytes path bytes) := by
  unfold ofBytes
  split
  · exact satisfiesM_error
  · split
    · exact satisfiesM_error
    · next entries hentries =>
      have hfits := SatisfiesM_Option_eq.mp (Toml.fits_of_parse _) entries hentries
      exact satisfiesM_mapError (fit_ofTable hfits) _

end FileSettings

end DeflateEcho.Settings

namespace DeflateEcho.Config

open Settings

theorem maxSessions_merge {a : Arguments} {f : FileSettings} (ha : a.Fit) (hf : f.Fit) :
    1 ≤ (merge a f).maxSessions ∧ (merge a f).maxSessions < 2 ^ 64 := by
  have hgiven : a.maxSessions.getD f.server.maxSessions < 2 ^ 64 := by
    cases hn : a.maxSessions with
    | none => exact hf.trans (by decide)
    | some n => exact ha n hn
  exact ⟨le_max_left _ _, max_lt (by decide) hgiven⟩

/-- **The settings in force allow one session at least, and fewer than `2 ^ 64`.** -/
theorem maxSessions_of_load (readFile : String → Except FileError Bytes)
    (arguments : List String) :
    SatisfiesM (fun config => 1 ≤ config.maxSessions ∧ config.maxSessions < 2 ^ 64)
      (load readFile arguments) := by
  have hparse := SatisfiesM_Except_eq.mp (Arguments.fit_of_parse arguments)
  unfold load
  split
  · exact satisfiesM_error
  · next a ha =>
    split
    · exact .pure (maxSessions_merge (hparse a ha) ServerSection.fit_default)
    · split
      · exact satisfiesM_error
      · exact .map (FileSettings.fit_ofBytes _ _) (maxSessions_merge (hparse a ha))

end DeflateEcho.Config
