import Mathlib
import DeflateEcho.Proofs.Toml.Grammar

/-!
# Proofs/Toml/Words — blanks, texts and keys are read as they are written

For each production of the grammar of blanks, texts and keys, the scanner that reads it takes just
that part off the front of a text and leaves what stands behind it.  What may stand behind is a
matter of one character: a scanner takes as much as it can, so the text must not go on with a
character that the part could have gone on with.
-/

namespace DeflateEcho.Toml

theorem NotBefore.mono {p q : Char → Prop} {x : List Char} (h : NotBefore p x)
    (hpq : ∀ c, q c → p c) : NotBefore q x := fun c hc hq => h c hc (hpq c hq)

theorem NotBefore.append {p : Char → Prop} {x y : List Char} (hx : ∀ c ∈ x, ¬ p c)
    (hy : NotBefore p y) : NotBefore p (x ++ y) := by
  cases x with
  | nil => exact hy
  | cons c x =>
    intro d hd
    rw [List.cons_append, List.head?_cons, Option.mem_some_iff] at hd
    exact hd ▸ hx c List.mem_cons_self

theorem NotBefore.append_of_ne_nil {p : Char → Prop} {x : List Char} (h : NotBefore p x)
    (hx : x ≠ []) (y : List Char) : NotBefore p (x ++ y) := by
  cases x with
  | nil => exact absurd rfl hx
  | cons c x => exact h

theorem notBefore_cons {p : Char → Prop} {c : Char} {x : List Char} :
    NotBefore p (c :: x) ↔ ¬ p c := by
  simp [NotBefore]

theorem notBefore_nil {p : Char → Prop} : NotBefore p [] := by simp [NotBefore]

/-- What has been tried out for all characters of a list. -/
theorem forall_of_all {p : Char → Prop} [DecidablePred p] {l : List Char}
    (h : l.all (p ·) = true) : ∀ c ∈ l, p c := by simpa using h

/-! ## Blanks, remarks and ends of lines -/

theorem blank_nil : Blank [] := fun _ h => absurd h List.not_mem_nil

theorem isSpace_cases {c : Char} (h : isSpace c) : c = ' ' ∨ c = '\t' := by
  simpa [isSpace] using h

theorem isPlain_of_isSpace {c : Char} (h : isSpace c) : isPlain c := by
  obtain rfl | rfl := isSpace_cases h
  all_goals rfl

theorem ne_lineBreak_of_isPlain {c : Char} (h : isPlain c) : c ≠ '\n' ∧ c ≠ '\r' := by
  constructor
  all_goals
    rintro rfl
    exact absurd h (by decide)

theorem skipSpaces_append {b : List Char} (hb : Blank b) (x : List Char) :
    skipSpaces (b ++ x) = skipSpaces x :=
  List.dropWhile_append_of_pos hb

theorem skipSpaces_eq_self {x : List Char} (hx : NotBefore (isSpace ·) x) : skipSpaces x = x := by
  cases x with
  | nil => rfl
  | cons c x => exact List.dropWhile_cons_of_neg (notBefore_cons.mp hx)

theorem lineBreak_append {n : List Char} (hn : LineBreak n) (x : List Char) :
    lineBreak (n ++ x) = some x := by
  cases hn <;> rfl

theorem LineBreak.notBefore_plain {n : List Char} (hn : LineBreak n) (x : List Char) :
    NotBefore (isPlain ·) (n ++ x) := by
  cases hn <;> exact notBefore_cons.mpr (by decide)

/-- **What may stand behind a statement ends where no plain character follows.** -/
theorem lineEnd_append {r x : List Char} (hr : Remark r) (hx : NotBefore (isPlain ·) x) :
    lineEnd (r ++ x) = lineBreak x := by
  have hself : skipSpaces x = x := skipSpaces_eq_self (hx.mono fun _ => isPlain_of_isSpace)
  cases hr with
  | blank hb =>
    rw [lineEnd, skipSpaces_append hb, hself]
    split
    · exact absurd (rfl : isPlain '#') (notBefore_cons.mp hx)
    · rfl
  | @comment b c hb hc =>
    have hdrop : x.dropWhile isPlain = x := by
      cases x with
      | nil => rfl
      | cons c x => exact List.dropWhile_cons_of_neg (notBefore_cons.mp hx)
    have hself : skipSpaces ('#' :: (c ++ x)) = '#' :: (c ++ x) :=
      skipSpaces_eq_self (notBefore_cons.mpr (by decide))
    rw [lineEnd, List.append_assoc, skipSpaces_append hb, List.cons_append, hself]
    change lineBreak ((c ++ x).dropWhile isPlain) = lineBreak x
    rw [List.dropWhile_append_of_pos hc, hdrop]

theorem skipTrivia_blank {b : List Char} (hb : Blank b) (x : List Char) :
    skipTrivia false (b ++ x) = skipTrivia false x := by
  induction b with
  | nil => rfl
  | cons c b ih =>
    obtain ⟨hc, hrest⟩ := List.forall_mem_cons.mp hb
    obtain rfl | rfl := isSpace_cases hc
    all_goals simpa [skipTrivia, isSpace] using ih hrest

theorem skipTrivia_comment {c n : List Char} (hc : ∀ x ∈ c, isPlain x) (hn : LineBreak n)
    (x : List Char) : skipTrivia true (c ++ (n ++ x)) = skipTrivia false x := by
  induction c with
  | nil => cases hn <;> simp [skipTrivia]
  | cons d c ih =>
    obtain ⟨hd, hc⟩ := List.forall_mem_cons.mp hc
    obtain ⟨hlf, hcr⟩ := ne_lineBreak_of_isPlain hd
    rw [List.cons_append, skipTrivia]
    · rw [if_pos hd, ih hc]
    · exact hlf
    · exact fun _ h _ => hcr h

/-- **A gap of an array is passed over.** -/
theorem skipTrivia_gap {g : List Char} (hg : Gap g) (x : List Char) :
    skipTrivia false (g ++ x) = skipTrivia false x := by
  induction hg with
  | blank hb => exact skipTrivia_blank hb x
  | @line r n g hr hn hg ih =>
    rw [List.append_assoc, List.append_assoc]
    cases hr with
    | blank hb =>
      rw [skipTrivia_blank hb]
      cases hn <;> simpa [skipTrivia] using ih
    | @comment b c hb hc =>
      rw [List.append_assoc, skipTrivia_blank hb, List.cons_append, skipTrivia]
      · rw [if_pos rfl, skipTrivia_comment hc hn, ih]
      · decide
      · exact fun _ h _ => absurd h (by decide)

/-- A character that a gap may begin with. -/
def inGap (c : Char) : Prop := isSpace c ∨ c = '\n' ∨ c = '\r' ∨ c = '#'

theorem skipTrivia_eq_self {x : List Char} (hx : NotBefore inGap x) : skipTrivia false x = x := by
  cases x with
  | nil => rfl
  | cons c x =>
    obtain ⟨hspace, hlf, hcr, hhash⟩ : ¬ isSpace c ∧ c ≠ '\n' ∧ c ≠ '\r' ∧ c ≠ '#' := by
      simpa [inGap, not_or] using notBefore_cons.mp hx
    rw [skipTrivia]
    · rw [if_neg hhash, if_neg hspace]
    · exact hlf
    · exact fun _ h _ => hcr h

/-! ## Escapes -/

theorem hexDigit?_eq {d : Char} (hd : isDigitOf 16 d) : hexDigit? d = some (digitValue d) := by
  obtain ⟨hletter, hvalue⟩ : d.isAlphanum ∧ digitValue d < 16 := by simpa [isDigitOf] using hd
  have hnat : d.toNat = d.val.toNat := rfl
  simp only [Char.isAlphanum, Char.isAlpha, Char.isUpper, Char.isLower, Char.isDigit, ge_iff_le,
    Bool.or_eq_true, Bool.and_eq_true, decide_eq_true_eq, UInt32.le_iff_toNat_le] at hletter
  simp only [digitValue, Char.le_def, UInt32.le_iff_toNat_le] at hvalue
  simp only [hexDigit?, digitValue, Char.le_def, UInt32.le_iff_toNat_le]
  grind

theorem mapM_hexDigit? {ds : List Char} (h : ∀ d ∈ ds, isDigitOf 16 d) :
    ds.mapM hexDigit? = some (ds.map digitValue) := by
  induction ds with
  | nil => rfl
  | cons d ds ih =>
    obtain ⟨hd, hds⟩ := List.forall_mem_cons.mp h
    simp [List.mapM_cons, hexDigit?_eq hd, ih hds]

/-- **The digits of a code point give back the character.** -/
theorem scalar?_eq {c : Char} {ds : List Char} (h : CodePoint c ds) : scalar? ds = some c := by
  obtain ⟨hds, hvalue⟩ := h
  have hn : (ds.map digitValue).foldl (fun n d => 16 * n + d) 0 = c.toNat :=
    List.foldl_map.trans hvalue
  have hvalid : c.toNat < 0xd800 ∨ (0xdfff < c.toNat ∧ c.toNat < 0x110000) := c.valid
  rw [scalar?, mapM_hexDigit? hds]
  change (if _ then some (Char.ofNat _) else none) = _
  rw [hn, if_pos hvalid, Char.ofNat_toNat]

/-! ## Texts on one line -/

theorem basicFrom_char {c : Char} {x : List Char} (hc : BasicChar c x) (read y : List Char) :
    basicFrom read (x ++ y) = basicFrom (c :: read) y := by
  cases hc with
  | plain hplain hquote hslash =>
    rw [List.singleton_append, basicFrom]
    · rw [if_pos ⟨hplain, hslash⟩]
    all_goals simp [hquote, hslash]
  | letter h =>
    have hall : ∀ e ∈ letterEscapes,
        basicFrom read ('\\' :: e.1 :: y) = basicFrom (e.2 :: read) y := by
      simp only [letterEscapes, List.forall_mem_cons]
      exact ⟨rfl, rfl, rfl, rfl, rfl, rfl, rfl, by simp⟩
    exact hall _ h
  | @four _ ds hlength h =>
    match ds, hlength with
    | [d₁, d₂, d₃, d₄], _ => simp [basicFrom, scalar?_eq h]
  | @eight _ ds hlength h =>
    match ds, hlength with
    | [d₁, d₂, d₃, d₄, d₅, d₆, d₇, d₈], _ => simp [basicFrom, scalar?_eq h]

/-- **A text in double quotes is read as it is written.** -/
theorem basicFrom_append {s x : List Char} (h : BasicText s x) (read rest : List Char) :
    basicFrom read (x ++ '"' :: rest) = some (String.ofList (read.reverse ++ s), rest) := by
  induction h generalizing read with
  | nil => simp [basicFrom]
  | char hc _ ih => simp [basicFrom_char hc, ih]

theorem literalFrom_append {x : List Char} (h : LiteralText x) (read rest : List Char) :
    literalFrom read (x ++ '\'' :: rest) = some (String.ofList (read.reverse ++ x), rest) := by
  induction x generalizing read with
  | nil => simp [literalFrom]
  | cons c x ih =>
    obtain ⟨⟨hplain, hquote⟩, hrest⟩ := List.forall_mem_cons.mp h
    simp [literalFrom, hplain, hquote, ih hrest]

/-! ## Texts over several lines -/

theorem multiBasicFrom_plain {c : Char} (hplain : isPlain c) (hquote : c ≠ '"') (hslash : c ≠ '\\')
    (read y : List Char) :
    multiBasicFrom .no read (c :: y) = multiBasicFrom .no (c :: read) y := by
  rw [multiBasicFrom.eq_def]
  split
  · next heq => cases heq; exact absurd hplain (by decide)
  · next heq => cases heq; exact absurd hplain (by decide)
  · next heq =>
    cases heq
    rw [if_neg (by simp), if_neg (by simp)]
    split
    all_goals simp_all
  · next heq => cases heq

theorem multiBasicFrom_char {c : Char} {x : List Char} (hc : BasicChar c x) (read y : List Char) :
    multiBasicFrom .no read (x ++ y) = multiBasicFrom .no (c :: read) y := by
  cases hc with
  | plain hplain hquote hslash => exact multiBasicFrom_plain hplain hquote hslash read y
  | letter h =>
    have hall : ∀ e ∈ letterEscapes,
        multiBasicFrom .no read ('\\' :: e.1 :: y) = multiBasicFrom .no (e.2 :: read) y := by
      simp only [letterEscapes, List.forall_mem_cons]
      exact ⟨rfl, rfl, rfl, rfl, rfl, rfl, rfl, by simp⟩
    exact hall _ h
  | @four _ ds hlength h =>
    match ds, hlength with
    | [d₁, d₂, d₃, d₄], _ =>
      rw [multiBasicFrom.eq_def]
      simp [scalar?_eq h]
  | @eight _ ds hlength h =>
    match ds, hlength with
    | [d₁, d₂, d₃, d₄, d₅, d₆, d₇, d₈], _ =>
      rw [multiBasicFrom.eq_def]
      simp [scalar?_eq h]

/-- Three quotes end a text, with those that stand right before them. -/
theorem multiBasicFrom_close {rest : List Char} (hrest : NotBefore (· = '"') rest)
    (read : List Char) :
    multiBasicFrom .no read ('"' :: '"' :: '"' :: rest) = some (String.ofList read.reverse, rest) ∧
    multiBasicFrom .no read ('"' :: '"' :: '"' :: '"' :: rest) =
      some (String.ofList ('"' :: read).reverse, rest) ∧
    multiBasicFrom .no read ('"' :: '"' :: '"' :: '"' :: '"' :: rest) =
      some (String.ofList ('"' :: '"' :: read).reverse, rest) := by
  cases rest with
  | nil => exact ⟨rfl, rfl, rfl⟩
  | cons c rest =>
    have hc : c ≠ '"' := hrest c rfl
    refine ⟨?_, ?_, rfl⟩
    all_goals
      rw [multiBasicFrom.eq_def]
      simp [hc]

/-- A quote that no two others follow stands for itself. -/
theorem multiBasicFrom_lone {z : List Char} (hz : ¬ ['"', '"'] <+: z) (read : List Char) :
    multiBasicFrom .no read ('"' :: z) = multiBasicFrom .no ('"' :: read) z := by
  rw [multiBasicFrom.eq_def]
  split
  · next heq => cases heq
  · next heq => cases heq
  · next heq =>
    cases heq
    rw [if_neg (by simp), if_neg (by simp)]
    split
    all_goals first | rfl | simp_all
  · next heq => cases heq

/-- A quote that no two others follow stands for itself, also right before the closing ones. -/
theorem multiBasicFrom_quote {y rest : List Char} (hy : ¬ ['"', '"'] <+: y)
    (hrest : NotBefore (· = '"') rest) (read : List Char) :
    multiBasicFrom .no read ('"' :: (y ++ '"' :: '"' :: '"' :: rest)) =
      multiBasicFrom .no ('"' :: read) (y ++ '"' :: '"' :: '"' :: rest) := by
  match y with
  | [] =>
    exact (multiBasicFrom_close hrest read).2.1.trans
      (multiBasicFrom_close hrest ('"' :: read)).1.symm
  | [c] =>
    by_cases hc : c = '"'
    · subst hc
      exact (multiBasicFrom_close hrest read).2.2.trans
        (multiBasicFrom_close hrest ('"' :: read)).2.1.symm
    · exact multiBasicFrom_lone (by simp [Ne.symm hc]) read
  | c :: d :: y => exact multiBasicFrom_lone (by simpa using hy) read

theorem multiBasicFrom_line {n : List Char} (hn : LineBreak n) (read y : List Char) :
    multiBasicFrom .no read (n ++ y) = multiBasicFrom .no ('\n' :: read) y := by
  cases hn <;> rfl

theorem multiBasicFrom_waiting {b : List Char} (hb : Blank b) (read y : List Char) :
    multiBasicFrom .waiting read (b ++ y) = multiBasicFrom .waiting read y := by
  induction b with
  | nil => rfl
  | cons c b ih =>
    obtain ⟨hc, hrest⟩ := List.forall_mem_cons.mp hb
    obtain rfl | rfl := isSpace_cases hc
    all_goals exact ih hrest

theorem multiBasicFrom_skipping {m : List Char} (hm : Margin m) (read y : List Char) :
    multiBasicFrom .skipping read (m ++ y) = multiBasicFrom .skipping read y := by
  induction hm with
  | nil => rfl
  | space hc _ ih =>
    rename_i c x _
    obtain rfl | rfl := isSpace_cases hc
    all_goals exact ih
  | line hn _ ih =>
    cases hn
    all_goals exact ih

/-- Behind its margin a text goes on as before. -/
theorem multiBasicFrom_resume {z : List Char} (hz : NotBefore inMargin z) (read : List Char) :
    multiBasicFrom .skipping read z = multiBasicFrom .no read z := by
  cases z with
  | nil => rfl
  | cons c z =>
    obtain ⟨hspace, hlf, hcr⟩ : ¬ isSpace c ∧ c ≠ '\n' ∧ c ≠ '\r' := by
      simpa [inMargin, not_or] using notBefore_cons.mp hz
    rw [multiBasicFrom.eq_def, multiBasicFrom.eq_def]
    simp [hspace, hcr]

/-- A backslash at the end of a line takes the margin with it. -/
theorem multiBasicFrom_joined {b n m z : List Char} (hb : Blank b) (hn : LineBreak n)
    (hm : Margin m) (hz : NotBefore inMargin z) (read : List Char) :
    multiBasicFrom .no read ('\\' :: (b ++ (n ++ (m ++ z)))) = multiBasicFrom .no read z := by
  have hbreak : ∀ joining, joining ≠ .no →
      multiBasicFrom joining read (n ++ (m ++ z)) = multiBasicFrom .no read z := by
    intro joining hjoining
    have hskip : multiBasicFrom joining read (n ++ (m ++ z)) =
        multiBasicFrom .skipping read (m ++ z) := by
      cases hn <;> cases joining <;> first | rfl | exact absurd rfl hjoining
    rw [hskip, multiBasicFrom_skipping hm, multiBasicFrom_resume hz]
  cases b with
  | nil =>
    rw [← hbreak .skipping (by simp)]
    cases hn <;> rfl
  | cons c b =>
    obtain ⟨hc, hrest⟩ := List.forall_mem_cons.mp hb
    rw [← hbreak .waiting (by simp), ← multiBasicFrom_waiting hrest]
    obtain rfl | rfl := isSpace_cases hc
    all_goals rfl

/-- **A text in three double quotes is read as it is written.** -/
theorem multiBasicFrom_append {s x rest : List Char} (h : MultiBasicText s x)
    (hrest : NotBefore (· = '"') rest) (read : List Char) :
    multiBasicFrom .no read (x ++ '"' :: '"' :: '"' :: rest) =
      some (String.ofList (read.reverse ++ s), rest) := by
  induction h generalizing read with
  | nil => simpa using (multiBasicFrom_close hrest read).1
  | char hc _ ih => simp [multiBasicFrom_char hc, ih]
  | quote hy _ ih => simp [multiBasicFrom_quote hy hrest, ih]
  | line hn _ ih => simp [multiBasicFrom_line hn, ih]
  | @joined b n m s y hb hn hm hy _ ih =>
    have hz : NotBefore inMargin (y ++ '"' :: '"' :: '"' :: rest) := by
      cases y with
      | nil => exact notBefore_cons.mpr (by unfold inMargin; decide)
      | cons c y => exact hy
    simp [multiBasicFrom_joined hb hn hm hz, ih]

theorem multiLiteralFrom_lone {z : List Char} (hz : ¬ ['\'', '\''] <+: z) (read : List Char) :
    multiLiteralFrom read ('\'' :: z) = multiLiteralFrom ('\'' :: read) z := by
  rw [multiLiteralFrom.eq_def]
  split
  all_goals simp_all
  next heq =>
    obtain ⟨rfl, rfl⟩ := heq
    rfl

theorem multiLiteralFrom_close {rest : List Char} (hrest : NotBefore (· = '\'') rest)
    (read : List Char) :
    multiLiteralFrom read ('\'' :: '\'' :: '\'' :: rest) =
      some (String.ofList read.reverse, rest) ∧
    multiLiteralFrom read ('\'' :: '\'' :: '\'' :: '\'' :: rest) =
      some (String.ofList ('\'' :: read).reverse, rest) ∧
    multiLiteralFrom read ('\'' :: '\'' :: '\'' :: '\'' :: '\'' :: rest) =
      some (String.ofList ('\'' :: '\'' :: read).reverse, rest) := by
  cases rest with
  | nil => exact ⟨rfl, rfl, rfl⟩
  | cons c rest =>
    have hc : c ≠ '\'' := hrest c rfl
    refine ⟨?_, ?_, rfl⟩
    all_goals
      rw [multiLiteralFrom.eq_def]
      simp [hc]

theorem multiLiteralFrom_quote {y rest : List Char} (hy : ¬ ['\'', '\''] <+: y)
    (hrest : NotBefore (· = '\'') rest) (read : List Char) :
    multiLiteralFrom read ('\'' :: (y ++ '\'' :: '\'' :: '\'' :: rest)) =
      multiLiteralFrom ('\'' :: read) (y ++ '\'' :: '\'' :: '\'' :: rest) := by
  match y with
  | [] =>
    exact (multiLiteralFrom_close hrest read).2.1.trans
      (multiLiteralFrom_close hrest ('\'' :: read)).1.symm
  | [c] =>
    by_cases hc : c = '\''
    · subst hc
      exact (multiLiteralFrom_close hrest read).2.2.trans
        (multiLiteralFrom_close hrest ('\'' :: read)).2.1.symm
    · exact multiLiteralFrom_lone (by simp [Ne.symm hc]) read
  | c :: d :: y => exact multiLiteralFrom_lone (by simpa using hy) read

/-- **A text in three single quotes is read as it is written.** -/
theorem multiLiteralFrom_append {s x rest : List Char} (h : MultiLiteralText s x)
    (hrest : NotBefore (· = '\'') rest) (read : List Char) :
    multiLiteralFrom read (x ++ '\'' :: '\'' :: '\'' :: rest) =
      some (String.ofList (read.reverse ++ s), rest) := by
  induction h generalizing read with
  | nil => simpa using (multiLiteralFrom_close hrest read).1
  | @char c s y hplain hquote _ ih =>
    obtain ⟨hlf, hcr⟩ := ne_lineBreak_of_isPlain hplain
    have hstep : ∀ z, multiLiteralFrom read (c :: z) = multiLiteralFrom (c :: read) z := by
      intro z
      rw [multiLiteralFrom.eq_def]
      split
      all_goals simp_all
    simp [hstep, ih]
  | quote hy _ ih => simp [multiLiteralFrom_quote hy hrest, ih]
  | @line n s y hn _ ih =>
    have hstep : ∀ z, multiLiteralFrom read (n ++ z) = multiLiteralFrom ('\n' :: read) z := by
      cases hn <;> exact fun _ => rfl
    simp [hstep, ih]

/-! ## Quoted texts -/

theorem skipFirstBreak_append {n x : List Char} (h : Opening n x) {c : Char} (hlf : c ≠ '\n')
    (hcr : c ≠ '\r') (rest : List Char) :
    skipFirstBreak (n ++ (x ++ c :: rest)) = x ++ c :: rest := by
  cases h with
  | line hn => cases hn <;> rfl
  | none hx =>
    cases x with
    | nil => simp [skipFirstBreak, hlf, hcr]
    | cons d x =>
      obtain ⟨hlf, hcr⟩ : d ≠ '\n' ∧ d ≠ '\r' := by
        simpa [not_or] using notBefore_cons.mp hx
      simp [skipFirstBreak, hlf, hcr]

theorem BasicChar.notBefore_quote {c : Char} {x : List Char} (hc : BasicChar c x) (y : List Char) :
    NotBefore (· = '"') (x ++ y) := by
  cases hc with
  | plain _ hquote _ => exact notBefore_cons.mpr hquote
  | letter => exact notBefore_cons.mpr (by decide)
  | four => exact notBefore_cons.mpr (by decide)
  | eight => exact notBefore_cons.mpr (by decide)

/-- One quote opens a text on one line if no two others follow it. -/
theorem quoted_lone {z : List Char} :
    (¬ ['"', '"'] <+: z → quoted ('"' :: z) = basicFrom [] z) ∧
    (¬ ['\'', '\''] <+: z → quoted ('\'' :: z) = literalFrom [] z) := by
  constructor
  all_goals
    intro hz
    rw [quoted]
    rintro rest rfl
    simp at hz

/-- A closing quote is the only one right behind an opening one. -/
theorem not_two_quotes {q : Char} {x rest : List Char} (hx : NotBefore (· = q) x)
    (hrest : NotBefore (· = q) rest) : ¬ [q, q] <+: x ++ q :: rest := by
  cases x with
  | nil =>
    cases rest with
    | nil => simp
    | cons c rest => simpa using fun h => hrest c rfl h.symm
  | cons c x => simpa using fun h => absurd h.symm (hx c rfl)

/-- **A quoted text of any kind is read as it is written**, if no quote stands behind it. -/
theorem quoted_append {s : String} {x rest : List Char} (h : StringText s x)
    (hrest : NotBefore (fun c => c = '"' ∨ c = '\'') rest) :
    quoted (x ++ rest) = some (s, rest) := by
  have hdouble : NotBefore (· = '"') rest := hrest.mono fun _ => .inl
  have hsingle : NotBefore (· = '\'') rest := hrest.mono fun _ => .inr
  cases h with
  | @basic s x h =>
    have hx : NotBefore (· = '"') x := by
      cases h with
      | nil => exact notBefore_nil
      | char hc _ => exact hc.notBefore_quote _
    simpa [quoted_lone.1 (not_two_quotes hx hdouble)] using basicFrom_append h [] rest
  | @literal x h =>
    have hx : NotBefore (· = '\'') x := fun c hc => (h c (List.mem_of_mem_head? hc)).2
    simpa [quoted_lone.2 (not_two_quotes hx hsingle)] using literalFrom_append h [] rest
  | @multiBasic n s x hn h =>
    simpa [quoted, skipFirstBreak_append hn] using multiBasicFrom_append h hdouble []
  | @multiLiteral n s x hn h =>
    simpa [quoted, skipFirstBreak_append hn] using multiLiteralFrom_append h hsingle []

/-! ## Keys -/

theorem key_bare {text : List Char} (hquotes : NotBefore (fun c => c = '"' ∨ c = '\'') text) :
    key text = if (text.takeWhile isBare).isEmpty then none
      else some (String.ofList (text.takeWhile isBare), text.dropWhile isBare) := by
  rw [key.eq_def]
  split
  · exact absurd (.inl rfl) (notBefore_cons.mp hquotes)
  · exact absurd (.inr rfl) (notBefore_cons.mp hquotes)
  · rfl

/-- **A key is read as it is written**, if no character of a bare key stands behind it. -/
theorem key_append {k : String} {x rest : List Char} (h : KeyText k x)
    (hrest : NotBefore (isBare ·) rest) : key (x ++ rest) = some (k, rest) := by
  cases h with
  | bare hx h =>
    have hquotes : NotBefore (fun c => c = '"' ∨ c = '\'') (x ++ rest) := by
      refine NotBefore.append_of_ne_nil (fun c hc => ?_) hx rest
      have hbare := h c (List.mem_of_mem_head? hc)
      rintro (rfl | rfl) <;> exact absurd hbare (by decide)
    have hstop : rest.takeWhile isBare = [] ∧ rest.dropWhile isBare = rest := by
      cases rest with
      | nil => exact ⟨rfl, rfl⟩
      | cons c rest =>
        have hc : ¬ isBare c := hrest c rfl
        exact ⟨List.takeWhile_cons_of_neg hc, List.dropWhile_cons_of_neg hc⟩
    rw [key_bare hquotes, List.takeWhile_append_of_pos h, List.dropWhile_append_of_pos h,
      hstop.1, hstop.2, List.append_nil, if_neg (by simpa using hx)]
  | basic h => simpa [key] using basicFrom_append h [] rest
  | literal h => simpa [key] using literalFrom_append h [] rest

/-- A character that a key may begin with. -/
def opensKey (c : Char) : Prop := isBare c ∨ c = '"' ∨ c = '\''

theorem KeyText.exists_cons {k : String} {x : List Char} (h : KeyText k x) :
    ∃ c y, x = c :: y ∧ opensKey c := by
  cases h with
  | bare hx h =>
    obtain ⟨c, y, rfl⟩ := List.exists_cons_of_ne_nil hx
    exact ⟨c, y, rfl, .inl (h c List.mem_cons_self)⟩
  | basic => exact ⟨_, _, rfl, .inr (.inl rfl)⟩
  | literal => exact ⟨_, _, rfl, .inr (.inr rfl)⟩

theorem PathText.exists_cons {path : List String} {x : List Char} (h : PathText path x) :
    ∃ c y, x = c :: y ∧ opensKey c := by
  cases h with
  | last hk hb =>
    obtain ⟨c, y, rfl, hc⟩ := hk.exists_cons
    exact ⟨c, _, rfl, hc⟩
  | dot hk hb hb' hpath =>
    obtain ⟨c, y, rfl, hc⟩ := hk.exists_cons
    exact ⟨c, _, rfl, hc⟩

theorem not_isSpace_of_opensKey {c : Char} (hc : opensKey c) : ¬ isSpace c := by
  intro hspace
  obtain rfl | rfl := isSpace_cases hspace
  all_goals exact absurd hc (by unfold opensKey; decide)

theorem PathText.ne_nil {path : List String} {x : List Char} (h : PathText path x) : path ≠ [] := by
  cases h <;> simp

section Path

variable {k : String} {text rest : List Char} (hkey : key (skipSpaces text) = some (k, rest))
include hkey

theorem keyPathWithin_last (hrest : NotBefore (· = '.') (skipSpaces rest)) (room : Nat) :
    keyPathWithin room text = some ([k], skipSpaces rest) := by
  cases room
  all_goals
    simp only [keyPathWithin, hkey, Option.bind_eq_bind, Option.bind_some]
    split
    · next heq => exact absurd rfl (hrest '.' (by rw [heq]; rfl))
    · rfl

theorem keyPathWithin_dot {z : List Char} (hrest : skipSpaces rest = '.' :: z) (room : Nat) :
    keyPathWithin (room + 1) text =
      (keyPathWithin room z).map fun found => (k :: found.1, found.2) := by
  simp only [keyPathWithin, hkey, hrest, Option.bind_eq_bind, Option.bind_some]
  cases keyPathWithin room z <;> rfl

theorem keyPathWithin_dot_zero {z : List Char} (hrest : skipSpaces rest = '.' :: z) :
    keyPathWithin 0 text = none := by
  simp [keyPathWithin, hkey, hrest]

end Path

/-- A character with which a dotted key may go on. -/
def goesOnPath (c : Char) : Prop := isBare c ∨ isSpace c ∨ c = '.'

theorem not_isBare_of_isSpace {c : Char} (h : isSpace c) : ¬ isBare c := by
  obtain rfl | rfl := isSpace_cases h
  all_goals decide

theorem key_skipSpaces {k : String} {x b b' rest : List Char} (hk : KeyText k x) (hb : Blank b)
    (hb' : Blank b') (hrest : NotBefore (isBare ·) rest) :
    key (skipSpaces (b ++ (x ++ (b' ++ rest)))) = some (k, b' ++ rest) := by
  obtain ⟨c, y, rfl, hc⟩ := hk.exists_cons
  rw [skipSpaces_append hb, List.cons_append,
    skipSpaces_eq_self (notBefore_cons.mpr (not_isSpace_of_opensKey hc))]
  exact key_append hk (.append (fun _ h => not_isBare_of_isSpace (hb' _ h)) hrest)

/-- **A dotted key is read as it is written**, unless it has more keys than there is room for. -/
theorem keyPathWithin_append {path : List String} {x rest : List Char} (h : PathText path x)
    (hrest : NotBefore goesOnPath rest) {b : List Char} (hb : Blank b) (room : Nat) :
    keyPathWithin room (b ++ (x ++ rest)) =
      if path.length ≤ room + 1 then some (path, rest) else none := by
  induction h generalizing b room with
  | @last k x b' hk hb' =>
    have hskip : skipSpaces (b' ++ rest) = rest := (skipSpaces_append hb' rest).trans
      (skipSpaces_eq_self (hrest.mono fun _ hc => .inr (.inl hc)))
    have hkey := key_skipSpaces hk hb hb' (hrest.mono fun _ => .inl)
    have hdot : NotBefore (· = '.') (skipSpaces (b' ++ rest)) := by
      rw [hskip]
      exact hrest.mono fun _ hc => .inr (.inr hc)
    rw [List.append_assoc, keyPathWithin_last hkey hdot, hskip]
    simp
  | @dot k path x b' b'' y hk hb' hb'' hpath ih =>
    have hskip : skipSpaces (b' ++ '.' :: (b'' ++ (y ++ rest))) = '.' :: (b'' ++ (y ++ rest)) :=
      (skipSpaces_append hb' _).trans (skipSpaces_eq_self (notBefore_cons.mpr (by decide)))
    have hkey : key (skipSpaces (b ++ (x ++ (b' ++ '.' :: (b'' ++ (y ++ rest)))))) =
        some (k, b' ++ '.' :: (b'' ++ (y ++ rest))) :=
      key_skipSpaces hk hb hb' (notBefore_cons.mpr (by decide))
    have htext : b ++ (x ++ b' ++ '.' :: (b'' ++ y) ++ rest) =
        b ++ (x ++ (b' ++ '.' :: (b'' ++ (y ++ rest)))) := by simp
    rw [htext]
    cases room with
    | zero =>
      rw [keyPathWithin_dot_zero hkey hskip, if_neg]
      have := List.length_pos_of_ne_nil hpath.ne_nil
      rw [List.length_cons]
      omega
    | succ room =>
      rw [keyPathWithin_dot hkey hskip, ih hb'']
      simp only [List.length_cons, Nat.add_le_add_iff_right]
      split <;> rfl

end DeflateEcho.Toml
