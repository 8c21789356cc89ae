import Mathlib
import DeflateEcho.Proofs.Toml.Parsing
import DeflateEcho.Proofs.Toml.Recognition.Numerals

/-!
# Proofs/Toml/Recognition/Files — a file is well-formed just if it can be written in lines

Every value that is read is written as some term (`recognizes_valueWithin`), by induction on the
depth, and every text that is read line by line is written in lines (`exists_linesText`).  Together
with the other direction, that a file stands for what its lines stand for, this says which texts are
well-formed: **those of the lines that go together** (`parse_eq_some_iff`).
-/

namespace DeflateEcho.Toml

/-! ## Arrays and inline tables -/

theorem isPlain_of_isDigitOf {c : Char} (hc : isDigitOf 10 c) : isPlain c := by
  rw [isDigitOf_ten] at hc
  simp only [Char.isDigit, ge_iff_le, Bool.and_eq_true, decide_eq_true_eq,
    UInt32.le_iff_toNat_le] at hc
  have hne : c ≠ '\x7f' := by
    rintro rfl
    exact absurd hc.2 (by decide)
  simp only [isPlain, Bool.or_eq_true, Bool.and_eq_true, decide_eq_true_eq, Char.le_def,
    UInt32.le_iff_toNat_le]
  exact .inr ⟨le_trans (by decide) hc.1, hne⟩

theorem isPlain_of_opensValue {c : Char} (hc : opensValue c) : isPlain c := by
  obtain ((hdigit | hmem) | hmem) | rfl | rfl := hc
  · exact isPlain_of_isDigitOf hdigit
  · exact forall_of_all (p := (isPlain ·)) (by decide) c hmem
  · exact forall_of_all (p := (isPlain ·)) (by decide) c hmem
  · decide
  · decide

theorem PathText.blank {path : List String} {x b : List Char} (h : PathText path x) (hb : Blank b) :
    PathText path (x ++ b) := by
  induction h with
  | @last k x b' hk hb' =>
    rw [List.append_assoc]
    exact .last hk (hb'.append hb)
  | @dot k path x b' b'' y hk hb' hb'' _ ih =>
    have htext : x ++ b' ++ '.' :: (b'' ++ y) ++ b = x ++ b' ++ '.' :: (b'' ++ (y ++ b)) := by simp
    exact htext ▸ .dot hk hb' hb'' ih

theorem EntriesText.blank {spelled : Term → List Char → Prop}
    {entries : List (List String × Term)} {y b : List Char} (h : EntriesText spelled entries y)
    (hb : Blank b) : EntriesText spelled entries (b ++ y) := by
  cases h with
  | last hb' h hb'' =>
    rw [← List.append_assoc]
    exact .last (hb.append hb') h hb''
  | comma hb' h hb'' hentries =>
    rw [← List.append_assoc]
    exact .comma (hb.append hb') h hb'' hentries

section Parts

variable {item : Scanner Value} (hitem : Recognizes item fun _ x => ∃ t, Spelled t x)
include hitem

/-- **The rest of an array is written as items.** -/
theorem exists_items {rounds : Nat} {read : List Value} {text rest : List Char} {v : Value}
    (h : itemsFrom item rounds read text = some (v, rest)) :
    ∃ items y, text = y ++ ']' :: rest ∧ ItemsText Spelled items y := by
  have hgap : ∀ {text c rest}, skipTrivia false text = c :: rest → isPlain c →
      ∃ g, text = g ++ c :: rest ∧ Gap g := fun h hc => by
    simpa using exists_gap_of_skipTrivia h hc
  induction rounds generalizing read text with
  | zero => cases h
  | succ rounds ih =>
    rw [itemsFrom] at h
    split at h
    · next heq =>
      cases h
      obtain ⟨g, rfl, hg⟩ := hgap heq (by decide)
      exact ⟨[], g, rfl, .none hg⟩
    · split at h
      · cases h
      · next v' behind hv =>
        obtain ⟨x, htext, t, ht⟩ := hitem hv
        obtain ⟨c, z, rfl, hc⟩ := ht.exists_cons
        obtain ⟨g, rfl, hg⟩ := hgap htext (isPlain_of_opensValue hc)
        split at h
        · next behind' heq =>
          obtain ⟨g', rfl, hg'⟩ := hgap heq (by decide)
          obtain ⟨items, y, rfl, hitems⟩ := ih h
          exact ⟨t :: items, _, by simp, .comma hg ht hg' hitems⟩
        · next heq =>
          obtain ⟨g', rfl, hg'⟩ := hgap heq (by decide)
          cases h
          exact ⟨[t], _, by simp, .last hg ht hg'⟩
        · cases h

theorem exists_assignment {text rest : List Char} {entry : List String × Value}
    (h : assignmentOf item text = some (entry, rest)) :
    ∃ b x t, text = b ++ (x ++ rest) ∧ Blank b ∧ AssignmentText Spelled (entry.1, t) x := by
  simp only [assignmentOf, Option.bind_eq_bind, Option.bind_eq_some_iff, Prod.exists] at h
  obtain ⟨path, behind, hpath, behind', hequals, v, _, hv, h⟩ := h
  cases h
  obtain ⟨b, x, rfl, hb, hx⟩ := exists_pathText hpath
  obtain ⟨b', hb', hbehind⟩ := exists_blank behind
  rw [eq_cons_of_expect hequals] at hbehind
  obtain ⟨b'', hb'', hbehind'⟩ := exists_blank behind'
  obtain ⟨y, hy, t, ht⟩ := hitem hv
  refine ⟨b, x ++ b' ++ '=' :: (b'' ++ y), t, ?_, hb, .mk (hx.blank hb') hb'' ht⟩
  rw [hbehind, hbehind', hy]
  simp

/-- **The rest of an inline table is written as assignments.** -/
theorem exists_entries {rounds : Nat} {read : List (List String × Value)} {text rest : List Char}
    {v : Value} (h : inlineFrom item rounds read text = some (v, rest)) :
    ∃ entries y, text = y ++ '\x7d' :: rest ∧ EntriesText Spelled entries y := by
  induction rounds generalizing read text with
  | zero => cases h
  | succ rounds ih =>
    rw [inlineFrom] at h
    split at h
    · cases h
    · next entry behind hentry =>
      obtain ⟨b, x, t, rfl, hb, hx⟩ := exists_assignment hitem hentry
      obtain ⟨b', hb', hbehind⟩ := exists_blank behind
      split at h
      · next behind' heq =>
        obtain ⟨entries, y, rfl, hentries⟩ := ih h
        refine ⟨(entry.1, t) :: entries, _, ?_, .comma hb hx hb' hentries⟩
        rw [hbehind, heq]
        simp
      · next behind' heq =>
        obtain ⟨entries, -, hrest⟩ := Option.map_eq_some_iff.mp h
        cases hrest
        refine ⟨[(entry.1, t)], _, ?_, .last hb hx hb'⟩
        rw [hbehind, heq]
        simp
      · cases h

end Parts

/-- **A value is written as it is read**, on every level. -/
theorem recognizes_valueWithin (depth : Nat) :
    Recognizes (valueWithin depth) fun _ x => ∃ t, Spelled t x := by
  have hsimple : Recognizes simple fun _ x => ∃ t, Spelled t x := fun text v rest h => by
    obtain ⟨x, rfl, hx⟩ := recognizes_simple h
    exact ⟨x, rfl, _, .scalar hx⟩
  induction depth with
  | zero => exact hsimple
  | succ depth ih =>
    intro text v rest h
    rw [valueWithin.eq_def] at h
    dsimp only at h
    split at h
    · obtain ⟨items, y, rfl, hitems⟩ := exists_items ih h
      exact ⟨'[' :: (y ++ [']']), by simp, _, .array hitems⟩
    · next behind =>
      obtain ⟨b, hb, hbehind⟩ := exists_blank behind
      split at h
      · next heq =>
        cases h
        exact ⟨'\x7b' :: (b ++ ['\x7d']), by rw [hbehind, heq]; simp, _, .empty hb⟩
      · obtain ⟨entries, y, heq, hentries⟩ := exists_entries ih h
        exact ⟨'\x7b' :: (b ++ y ++ ['\x7d']), by rw [hbehind, heq]; simp, _,
          .inline (hentries.blank hb)⟩
    · exact hsimple h

/-! ## Lines and files -/

theorem lineTail_of_lineBreak {text rest : List Char} (h : lineBreak text = some rest) :
    LineTail text rest := by
  rw [lineBreak.eq_def] at h
  split at h
  · cases h; exact .nil
  · cases h; exact .line .lf _
  · cases h; exact .line .crlf _
  · cases h

/-- **What is passed over behind a statement is a remark** and the end of the line. -/
theorem exists_remark {text rest : List Char} (h : lineEnd text = some rest) :
    ∃ r z, text = r ++ z ∧ Remark r ∧ LineTail z rest := by
  obtain ⟨b, hb, htext⟩ := exists_blank text
  rw [lineEnd] at h
  split at h
  · next comment heq =>
    refine ⟨b ++ '#' :: comment.takeWhile isPlain, comment.dropWhile isPlain, ?_,
      .comment hb fun _ => List.mem_takeWhile_imp, lineTail_of_lineBreak h⟩
    rw [List.append_assoc, List.cons_append, List.takeWhile_append_dropWhile, ← heq, ← htext]
  · exact ⟨b, skipSpaces text, htext, .blank hb, lineTail_of_lineBreak h⟩

/-- **A statement is written as a line**, with a remark behind it. -/
theorem exists_lineText {text rest : List Char} {s : Statement}
    (h : statement text = some (s, rest)) :
    ∃ b x r z line, text = b ++ (x ++ (r ++ z)) ∧ Blank b ∧ LineText line x ∧ Remark r ∧
      LineTail z rest := by
  rw [statement.eq_def] at h
  split at h
  · simp only [Option.bind_eq_bind, Option.bind_eq_some_iff, Prod.exists] at h
    obtain ⟨path, _, hpath, _, hclose, _, hclose', _, hend, h⟩ := h
    cases h
    obtain ⟨b, x, rfl, hb, hx⟩ := exists_pathText hpath
    obtain rfl := eq_cons_of_expect hclose
    obtain rfl := eq_cons_of_expect hclose'
    obtain ⟨r, z, rfl, hr, hz⟩ := exists_remark hend
    exact ⟨[], _, r, z, _, by simp, blank_nil, .element hb hx, hr, hz⟩
  · simp only [Option.bind_eq_bind, Option.bind_eq_some_iff, Prod.exists] at h
    obtain ⟨path, _, hpath, _, hclose, _, hend, h⟩ := h
    cases h
    obtain ⟨b, x, rfl, hb, hx⟩ := exists_pathText hpath
    obtain rfl := eq_cons_of_expect hclose
    obtain ⟨r, z, rfl, hr, hz⟩ := exists_remark hend
    exact ⟨[], _, r, z, _, by simp, blank_nil, .table hb hx, hr, hz⟩
  · simp only [Option.bind_eq_bind, Option.bind_eq_some_iff, Prod.exists] at h
    obtain ⟨path, v, _, hentry, _, hend, h⟩ := h
    cases h
    obtain ⟨b, x, t, rfl, hb, hx⟩ := exists_assignment (recognizes_valueWithin _) hentry
    obtain ⟨r, z, rfl, hr, hz⟩ := exists_remark hend
    exact ⟨b, x, r, z, _, rfl, hb, .assignment hx, hr, hz⟩

/-- **What is read line by line is written in lines.** -/
theorem exists_linesText {rounds : Nat} {read statements : List Statement} {text : List Char}
    (h : statementsFrom rounds read text = some statements) : ∃ lines, LinesText lines text := by
  induction rounds generalizing read text with
  | zero => cases h
  | succ rounds ih =>
    obtain ⟨b, hb, htext⟩ := exists_blank text
    rw [statementsFrom] at h
    split at h
    · next heq =>
      rw [heq, List.append_nil] at htext
      exact ⟨[], htext ▸ .none (.blank hb)⟩
    · split at h
      · next hend =>
        rw [lineEnd_skipSpaces] at hend
        obtain ⟨r, z, rfl, hr, hz⟩ := exists_remark hend
        obtain ⟨lines, hlines⟩ := ih h
        cases hz with
        | nil => exact ⟨[], (List.append_nil r).symm ▸ .none hr⟩
        | line hn => exact ⟨lines, .skip hr hn hlines⟩
      · split at h
        · next hs =>
          obtain ⟨b', x, r, z, line, hskip, hb', hx, hr, hz⟩ := exists_lineText hs
          rw [hskip, ← List.append_assoc] at htext
          obtain ⟨lines, hlines⟩ := ih h
          cases hz with
          | nil =>
            rw [List.append_nil] at htext
            exact ⟨[line], htext ▸ .last (hb.append hb') hx hr⟩
          | line hn => exact ⟨line :: lines, htext ▸ .line (hb.append hb') hx hr hn hlines⟩
        · cases h

/-- **A text is well-formed just if it can be written in lines** that go together, and it stands for
what they stand for. -/
theorem parse_eq_some_iff {text : List Char} {table : List (String × Value)} :
    parse (String.ofList text) = some table ↔
      ∃ lines, FileText lines text ∧ readFile lines = some table := by
  constructor
  · intro h
    obtain ⟨statements, hstatements, -⟩ := Option.bind_eq_some_iff.mp h
    rw [String.toList_ofList, Toml.statements.eq_def] at hstatements
    have hlines : ∃ lines, FileText lines text := by
      dsimp only at hstatements
      split at hstatements
      · obtain ⟨lines, hlines⟩ := exists_linesText hstatements
        exact ⟨lines, .marked hlines⟩
      · obtain ⟨lines, hlines⟩ := exists_linesText hstatements
        exact ⟨lines, .plain hlines⟩
    obtain ⟨lines, hlines⟩ := hlines
    exact ⟨lines, hlines, (parse_eq hlines).symm.trans h⟩
  · rintro ⟨lines, hlines, h⟩
    exact (parse_eq hlines).trans h

end DeflateEcho.Toml
