import Mathlib
import DeflateEcho.Proofs.Toml.Words

/-!
# Proofs/Toml/Recognition/Words — blanks, texts and keys are written as they are read

The other direction: **what a scanner takes off a text is written as the grammar says**
(`Recognizes`).  The scanner of a quoted text carries along what it has read, so what is said of it is
how the rest is written up to the closing quotes (`ReadOn`), with one lemma for each way in which a
text may go on.
-/

namespace DeflateEcho.Toml

/-- A scanner **recognizes** a form if what it takes off a text is written so. -/
def Recognizes {α : Type} (scan : Scanner α) (form : α → List Char → Prop) : Prop :=
  ∀ ⦃text : List Char⦄ ⦃a : α⦄ ⦃rest : List Char⦄, scan text = some (a, rest) →
    ∃ x, text = x ++ rest ∧ form a x

/-! ## Blanks, remarks and ends of lines -/

theorem Blank.append {b b' : List Char} (hb : Blank b) (hb' : Blank b') : Blank (b ++ b') :=
  fun c hc => (List.mem_append.mp hc).elim (hb c) (hb' c)

theorem exists_blank (text : List Char) : ∃ b, Blank b ∧ text = b ++ skipSpaces text :=
  ⟨text.takeWhile isSpace, fun _ hc => List.mem_takeWhile_imp hc,
    List.takeWhile_append_dropWhile.symm⟩

theorem Gap.space {c : Char} {g : List Char} (hc : isSpace c) (hg : Gap g) : Gap (c :: g) := by
  have hspace : ∀ {b}, Blank b → Blank (c :: b) := fun hb => List.forall_mem_cons.mpr ⟨hc, hb⟩
  cases hg with
  | blank hb => exact .blank (hspace hb)
  | @line r n g hr hn hg =>
    cases hr with
    | blank hb => exact .line (.blank (hspace hb)) hn hg
    | comment hb hc => exact .line (.comment (hspace hb) hc) hn hg

/-- **What is passed over in an array is a gap**, or inside a comment the rest of it and a gap. -/
theorem exists_gap_of_skipTrivia {inComment : Bool} {text rest : List Char} {c : Char}
    (h : skipTrivia inComment text = c :: rest) (hc : isPlain c) :
    ∃ g, text = g ++ c :: rest ∧ if inComment then
      ∃ x n g', g = x ++ n ++ g' ∧ (∀ y ∈ x, isPlain y) ∧ LineBreak n ∧ Gap g' else Gap g := by
  -- inside a comment nothing but its end leads back to the blanks of the gap
  fun_induction skipTrivia inComment text with
  | case1 => cases h
  | case2 inComment text ih =>
    obtain ⟨g, rfl, hg⟩ := ih h
    refine ⟨'\n' :: g, rfl, ?_⟩
    split
    · exact ⟨[], ['\n'], g, rfl, by simp, .lf, hg⟩
    · exact .line (.blank blank_nil) .lf hg
  | case3 inComment text ih =>
    obtain ⟨g, rfl, hg⟩ := ih h
    refine ⟨'\r' :: '\n' :: g, rfl, ?_⟩
    split
    · exact ⟨[], ['\r', '\n'], g, rfl, by simp, .crlf, hg⟩
    · exact .line (.blank blank_nil) .crlf hg
  | case4 d text _ _ hd ih =>
    obtain ⟨g, rfl, x, n, g', rfl, hx, hn, hg'⟩ := ih h
    exact ⟨d :: (x ++ n ++ g'), rfl, d :: x, n, g', rfl, List.forall_mem_cons.mpr ⟨hd, hx⟩, hn, hg'⟩
  | case5 d text _ _ hd =>
    cases h
    exact absurd hc hd
  | case6 text _ _ ih =>
    obtain ⟨g, rfl, x, n, g', rfl, hx, hn, hg'⟩ := ih h
    exact ⟨'#' :: (x ++ n ++ g'), rfl, .line (.comment blank_nil hx) hn hg'⟩
  | case7 d text _ _ _ hd ih =>
    obtain ⟨g, rfl, hg⟩ := ih h
    exact ⟨d :: g, rfl, .space hd hg⟩
  | case8 d text =>
    cases h
    exact ⟨[], rfl, .blank blank_nil⟩

/-! ## Escapes -/

theorem isDigitOf_of_hexDigit? {d : Char} {n : Nat} (h : hexDigit? d = some n) :
    isDigitOf 16 d ∧ n = digitValue d := by
  have hnat : d.toNat = d.val.toNat := rfl
  simp only [hexDigit?, Char.le_def, UInt32.le_iff_toNat_le] at h
  simp only [isDigitOf, digitValue, Char.isAlphanum, Char.isAlpha, Char.isUpper, Char.isLower,
    Char.isDigit, ge_iff_le, Bool.or_eq_true, Bool.and_eq_true, decide_eq_true_eq, Char.le_def,
    UInt32.le_iff_toNat_le]
  grind

theorem mapM_hexDigit?_eq {ds : List Char} {ns : List Nat} (h : ds.mapM hexDigit? = some ns) :
    (∀ d ∈ ds, isDigitOf 16 d) ∧ ns = ds.map digitValue := by
  induction ds generalizing ns with
  | nil => cases h; exact ⟨by simp, rfl⟩
  | cons d ds ih =>
    simp only [List.mapM_cons, Option.bind_eq_bind, Option.bind_eq_some_iff, Option.pure_def,
      Option.some.injEq] at h
    obtain ⟨n, hd, ns, hds, rfl⟩ := h
    obtain ⟨hdigit, rfl⟩ := isDigitOf_of_hexDigit? hd
    obtain ⟨hdigits, rfl⟩ := ih hds
    exact ⟨List.forall_mem_cons.mpr ⟨hdigit, hdigits⟩, rfl⟩

theorem codePoint_of_scalar? {c : Char} {ds : List Char} (h : scalar? ds = some c) :
    CodePoint c ds := by
  rw [scalar?] at h
  obtain ⟨ns, hns, hc⟩ := Option.bind_eq_some_iff.mp h
  obtain ⟨hds, rfl⟩ := mapM_hexDigit?_eq hns
  have hvalue : (ds.map digitValue).foldl (fun n d => 16 * n + d) 0 = valueOf 16 ds :=
    List.foldl_map
  simp only [hvalue] at hc
  split at hc
  · next hvalid =>
    cases hc
    refine ⟨hds, ?_⟩
    rw [Char.ofNat, dif_pos (show (valueOf 16 ds).isValidChar from hvalid)]
    rfl
  · cases hc

theorem mem_letterEscapes {l c : Char} (h : escape? l = some c) : (l, c) ∈ letterEscapes := by
  rw [escape?.eq_def] at h
  split at h
  all_goals cases h
  all_goals simp [letterEscapes]

/-! ## Texts on one line -/

/-- What a scanner of a text gives that has read some characters and reads the rest of the text, up
to the closing quotes. -/
def ReadOn (form : List Char → List Char → Prop) (close read text : List Char) (s : String)
    (rest : List Char) : Prop :=
  ∃ y x, form y x ∧ text = x ++ (close ++ rest) ∧ s = String.ofList (read.reverse ++ y)

theorem ReadOn.nil {form : List Char → List Char → Prop} (h : form [] [])
    (close read rest : List Char) :
    ReadOn form close read (close ++ rest) (String.ofList read.reverse) rest :=
  ⟨[], [], h, rfl, by simp⟩

section ReadOn

variable {close read text rest : List Char} {s : String} {c : Char} {x : List Char}

theorem ReadOn.basicChar (hc : BasicChar c x) (h : ReadOn BasicText close (c :: read) text s rest) :
    ReadOn BasicText close read (x ++ text) s rest := by
  obtain ⟨y, z, hy, rfl, rfl⟩ := h
  exact ⟨c :: y, x ++ z, .char hc hy, by simp, by simp⟩

/-- **A text between double quotes is written as it is read.** -/
theorem readOn_of_basicFrom (h : basicFrom read text = some (s, rest)) :
    ReadOn BasicText ['"'] read text s rest := by
  fun_induction basicFrom read text with
  | case1 read text =>
    cases h
    exact .nil .nil _ _ _
  | case2 read a b c d text v hv ih => exact .basicChar (.four rfl (codePoint_of_scalar? hv)) (ih h)
  | case4 read a b c d e f g i text v hv ih =>
    exact .basicChar (.eight rfl (codePoint_of_scalar? hv)) (ih h)
  | case6 read c text _ _ v hv ih => exact .basicChar (.letter (mem_letterEscapes hv)) (ih h)
  | case8 read c text hquote _ _ _ hc ih => exact .basicChar (.plain hc.1 hquote hc.2) (ih h)
  | _ => cases h

theorem readOn_of_literalFrom (h : literalFrom read text = some (s, rest)) :
    ReadOn (fun y x => y = x ∧ LiteralText x) ['\''] read text s rest := by
  fun_induction literalFrom read text with
  | case2 read text =>
    cases h
    exact .nil ⟨rfl, by simp [LiteralText]⟩ _ _ _
  | case3 read c text hquote hc ih =>
    obtain ⟨x, _, ⟨rfl, hx⟩, rfl, rfl⟩ := ih h
    exact ⟨_, c :: x, ⟨rfl, List.forall_mem_cons.mpr ⟨⟨hc, hquote⟩, hx⟩⟩, rfl, by simp⟩
  | _ => cases h

/-! ## Texts over several lines -/

theorem ReadOn.multiBasicChar (hc : BasicChar c x)
    (h : ReadOn MultiBasicText close (c :: read) text s rest) :
    ReadOn MultiBasicText close read (x ++ text) s rest := by
  obtain ⟨y, z, hy, rfl, rfl⟩ := h
  exact ⟨c :: y, x ++ z, .char hc hy, by simp, by simp⟩

/-- A carriage return alone stands nowhere. -/
theorem multiBasicFrom_return (joining : Joining) (h : text.head? ≠ some '\n') :
    multiBasicFrom joining read ('\r' :: text) = none := by
  rw [multiBasicFrom.eq_def]
  split
  · next heq => cases heq
  · next heq =>
    cases heq
    exact absurd rfl h
  · next heq =>
    cases heq
    cases joining <;> simp [isSpace, isPlain]
  · rfl

/-- What is skipped behind a backslash at the end of a line is a margin. -/
theorem exists_margin {text : List Char}
    (h : multiBasicFrom .skipping read text = some (s, rest)) :
    ∃ m z, text = m ++ z ∧ Margin m ∧ NotBefore inMargin z ∧
      multiBasicFrom .no read z = some (s, rest) := by
  match text with
  | [] => cases h
  | c :: text =>
    by_cases hc : inMargin c
    · obtain ⟨n, z, htext, hne, hmargin⟩ : ∃ n z, c :: text = n ++ z ∧ n ≠ [] ∧
          ∀ x, Margin x → Margin (n ++ x) := by
        obtain hspace | rfl | rfl := hc
        · exact ⟨[c], text, rfl, by simp, fun _ => .space hspace⟩
        · exact ⟨['\n'], text, rfl, by simp, fun _ => .line .lf⟩
        · by_cases hlf : text.head? = some '\n'
          · obtain ⟨text, rfl⟩ := List.head?_eq_some_iff.mp hlf
            exact ⟨['\r', '\n'], text, rfl, by simp, fun _ => .line .crlf⟩
          · rw [multiBasicFrom_return _ hlf] at h
            cases h
      have hshorter : z.length < (c :: text).length := by
        have hpos := List.length_pos_of_ne_nil hne
        rw [htext, List.length_append]
        omega
      rw [htext, multiBasicFrom_skipping (List.append_nil n ▸ hmargin [] .nil)] at h
      obtain ⟨m, z, rfl, hm, hz⟩ := exists_margin h
      exact ⟨n ++ m, z, by rw [htext, List.append_assoc], hmargin m hm, hz⟩
    · have hstop : NotBefore inMargin (c :: text) := notBefore_cons.mpr hc
      exact ⟨[], c :: text, rfl, .nil, hstop, multiBasicFrom_resume hstop read ▸ h⟩
termination_by text.length
decreasing_by exact hshorter

/-- Behind a backslash and a blank there are blanks up to the end of the line. -/
theorem exists_lineBreak (h : multiBasicFrom .waiting read text = some (s, rest)) :
    ∃ b n z, text = b ++ (n ++ z) ∧ Blank b ∧ LineBreak n ∧
      multiBasicFrom .skipping read z = some (s, rest) := by
  induction text with
  | nil => cases h
  | cons c text ih =>
    by_cases hspace : isSpace c
    · have hblank : Blank [c] := List.forall_mem_singleton.mpr hspace
      rw [← List.singleton_append, multiBasicFrom_waiting hblank] at h
      obtain ⟨b, n, z, rfl, hb, hn, hz⟩ := ih h
      exact ⟨c :: b, n, z, rfl, List.forall_mem_cons.mpr ⟨hspace, hb⟩, hn, hz⟩
    · rw [multiBasicFrom.eq_def] at h
      split at h
      · next heq =>
        cases heq
        exact ⟨[], ['\n'], _, rfl, blank_nil, .lf, h⟩
      · next heq =>
        cases heq
        exact ⟨[], ['\r', '\n'], _, rfl, blank_nil, .crlf, h⟩
      · next heq =>
        cases heq
        simp [hspace] at h
      · cases h

/-- The text behind a margin goes on in the text. -/
theorem ReadOn.joined {b n m z : List Char} (hb : Blank b) (hn : LineBreak n) (hm : Margin m)
    (hz : NotBefore inMargin z) (h : ReadOn MultiBasicText close read z s rest) :
    ReadOn MultiBasicText close read ('\\' :: (b ++ (n ++ (m ++ z)))) s rest := by
  obtain ⟨y, x, hy, rfl, rfl⟩ := h
  have hx : NotBefore inMargin x := fun c hc => hz c (by rw [List.head?_append, hc]; rfl)
  exact ⟨y, '\\' :: (b ++ n ++ m ++ x), .joined hb hn hm hx hy, by simp, rfl⟩

theorem ReadOn.multiBasicLine (hn : LineBreak x)
    (h : ReadOn MultiBasicText close ('\n' :: read) text s rest) :
    ReadOn MultiBasicText close read (x ++ text) s rest := by
  obtain ⟨y, z, hy, rfl, rfl⟩ := h
  exact ⟨'\n' :: y, x ++ z, .line hn hy, by simp, by simp⟩

theorem ReadOn.multiBasicQuote (htext : ¬ ['"', '"'] <+: text)
    (h : ReadOn MultiBasicText close ('"' :: read) text s rest) :
    ReadOn MultiBasicText close read ('"' :: text) s rest := by
  obtain ⟨y, x, hy, rfl, rfl⟩ := h
  refine ⟨'"' :: y, '"' :: x, .quote (fun hx => htext ?_) hy, rfl, by simp⟩
  exact hx.trans (List.prefix_append x _)

/-- **A text between three double quotes is written as it is read.** -/
theorem readOn_of_multiBasicFrom {read text : List Char}
    (h : multiBasicFrom .no read text = some (s, rest)) :
    ReadOn MultiBasicText ['"', '"', '"'] read text s rest := by
  -- a margin takes more than one character off, so the induction is on the length of the text
  induction hlength : text.length using Nat.strong_induction_on generalizing read text with
  | _ length ih =>
    subst hlength
    have hgoesOn : ∀ {read' text'}, multiBasicFrom .no read' text' = some (s, rest) →
        text'.length < text.length → ReadOn MultiBasicText ['"', '"', '"'] read' text' s rest :=
      fun h hshorter => ih _ hshorter h rfl
    have hmargin : ∀ {b n text'}, text = '\\' :: (b ++ (n ++ text')) → Blank b → LineBreak n →
        multiBasicFrom .skipping read text' = some (s, rest) →
        ReadOn MultiBasicText ['"', '"', '"'] read text s rest := by
      rintro b n text' rfl hb hn h
      obtain ⟨m, z, rfl, hm, hz, h⟩ := exists_margin h
      exact .joined hb hn hm hz (hgoesOn h (by simp; omega))
    rw [multiBasicFrom.eq_def] at h
    split at h
    · dsimp only at h
      exact .multiBasicLine .lf (hgoesOn h (by simp))
    · dsimp only at h
      exact .multiBasicLine .crlf (hgoesOn h (by simp))
    · next c text _ _ =>
      rw [if_neg (by simp), if_neg (by simp)] at h
      split at h
      · cases h
        exact ⟨['"', '"'], ['"', '"'], .quote (by simp) (.quote (by simp) .nil), rfl, by simp⟩
      · cases h
        exact ⟨['"'], ['"'], .quote (by simp) .nil, rfl, by simp⟩
      · cases h
        exact .nil .nil _ _ _
      · split at h
        · next hv =>
          exact .multiBasicChar (.four rfl (codePoint_of_scalar? hv))
            (hgoesOn h (by simp only [List.length_cons]; omega))
        · cases h
      · split at h
        · next hv =>
          exact .multiBasicChar (.eight rfl (codePoint_of_scalar? hv))
            (hgoesOn h (by simp only [List.length_cons]; omega))
        · cases h
      · exact hmargin (b := []) rfl blank_nil .lf h
      · exact hmargin (b := []) rfl blank_nil .crlf h
      · split at h
        · next hspace =>
          obtain ⟨b, n, z, rfl, hb, hn, h⟩ := exists_lineBreak h
          exact hmargin rfl (List.forall_mem_cons.mpr ⟨hspace, hb⟩) hn h
        · split at h
          · next hv =>
            exact .multiBasicChar (.letter (mem_letterEscapes hv)) (hgoesOn h (by simp))
          · cases h
      · next _ _ hquotes _ _ _ _ _ =>
        split at h
        · next hc =>
          have hrest := hgoesOn h (by simp)
          by_cases hquote : c = '"'
          · subst hquote
            refine .multiBasicQuote ?_ hrest
            rintro ⟨z, rfl⟩
            exact hquotes _ rfl rfl
          · exact .multiBasicChar (.plain hc.1 hquote hc.2) hrest
        · cases h
    · cases h

/-- **A text between three single quotes is written as it is read.** -/
theorem readOn_of_multiLiteralFrom (h : multiLiteralFrom read text = some (s, rest)) :
    ReadOn MultiLiteralText ['\'', '\'', '\''] read text s rest := by
  fun_induction multiLiteralFrom read text with
  | case1 read text =>
    cases h
    exact ⟨['\'', '\''], ['\'', '\''], .quote (by simp) (.quote (by simp) .nil), rfl, by simp⟩
  | case2 read text =>
    cases h
    exact ⟨['\''], ['\''], .quote (by simp) .nil, rfl, by simp⟩
  | case3 read text =>
    cases h
    exact .nil .nil _ _ _
  | case4 read text ih =>
    obtain ⟨y, x, hy, rfl, rfl⟩ := ih h
    exact ⟨'\n' :: y, '\n' :: x, .line .lf hy, rfl, by simp⟩
  | case5 read text ih =>
    obtain ⟨y, x, hy, rfl, rfl⟩ := ih h
    exact ⟨'\n' :: y, '\r' :: '\n' :: x, .line .crlf hy, rfl, by simp⟩
  | case6 read c text _ _ hquotes _ _ hc ih =>
    obtain ⟨y, x, hy, rfl, rfl⟩ := ih h
    refine ⟨c :: y, c :: x, ?_, rfl, by simp⟩
    by_cases hquote : c = '\''
    · subst hquote
      refine .quote ?_ hy
      rintro ⟨z, rfl⟩
      exact hquotes _ rfl rfl
    · exact .char hc hquote hy
  | _ => cases h

end ReadOn

/-! ## Quoted texts and keys -/

/-- A character that an end of a line begins with. -/
def beginsBreak (c : Char) : Prop := c = '\n' ∨ c = '\r'

/-- Where the end of a line has to be passed over, it is one that the text does not begin with. -/
theorem exists_opening {text z : List Char} (h : skipFirstBreak text = z)
    (hz : (∃ n w, LineBreak n ∧ z = n ++ w) ∨ NotBefore beginsBreak z) :
    ∃ n, text = n ++ z ∧ Opening n z := by
  rw [skipFirstBreak.eq_def] at h
  split at h
  · exact ⟨['\n'], by rw [h]; rfl, .line .lf⟩
  · exact ⟨['\r', '\n'], by rw [h]; rfl, .line .crlf⟩
  · next hlf hcrlf =>
    subst h
    refine ⟨[], rfl, .none (hz.resolve_left ?_)⟩
    rintro ⟨n, w, hn, rfl⟩
    cases hn with
    | lf => exact hlf _ rfl
    | crlf => exact hcrlf _ rfl

theorem Opening.of_append {n x y : List Char} (h : Opening n (x ++ y)) : Opening n x := by
  cases h with
  | line hn => exact .line hn
  | none hxy => exact .none fun c hc => hxy c (by rw [List.head?_append, hc]; rfl)

theorem not_beginsBreak {c : Char} (hc : isPlain c) : ¬ beginsBreak c := fun h =>
  h.elim (ne_lineBreak_of_isPlain hc).1 (ne_lineBreak_of_isPlain hc).2

theorem BasicChar.notBefore_break {c : Char} {x : List Char} (hc : BasicChar c x) (y : List Char) :
    NotBefore beginsBreak (x ++ y) := by
  cases hc with
  | plain hplain => exact notBefore_cons.mpr (not_beginsBreak hplain)
  | letter => exact notBefore_cons.mpr (not_beginsBreak (by decide))
  | four => exact notBefore_cons.mpr (not_beginsBreak (by decide))
  | eight => exact notBefore_cons.mpr (not_beginsBreak (by decide))

theorem MultiBasicText.begins {y x close : List Char} (h : MultiBasicText y x)
    (hclose : NotBefore beginsBreak close) :
    (∃ n w, LineBreak n ∧ x ++ close = n ++ w) ∨ NotBefore beginsBreak (x ++ close) := by
  cases h with
  | nil => exact .inr hclose
  | char hc => exact .inr (by rw [List.append_assoc]; exact hc.notBefore_break _)
  | quote => exact .inr (notBefore_cons.mpr (not_beginsBreak (by decide)))
  | line hn => exact .inl ⟨_, _, hn, List.append_assoc ..⟩
  | joined => exact .inr (notBefore_cons.mpr (not_beginsBreak (by decide)))

theorem MultiLiteralText.begins {y x close : List Char} (h : MultiLiteralText y x)
    (hclose : NotBefore beginsBreak close) :
    (∃ n w, LineBreak n ∧ x ++ close = n ++ w) ∨ NotBefore beginsBreak (x ++ close) := by
  cases h with
  | nil => exact .inr hclose
  | char hc => exact .inr (notBefore_cons.mpr (not_beginsBreak hc))
  | quote => exact .inr (notBefore_cons.mpr (not_beginsBreak (by decide)))
  | line hn => exact .inl ⟨_, _, hn, List.append_assoc ..⟩

theorem recognizes_quoted : Recognizes quoted StringText := by
  intro text s rest h
  rw [quoted.eq_def] at h
  split at h
  · next text =>
    obtain ⟨y, x, hy, htext, rfl⟩ := readOn_of_multiBasicFrom h
    obtain ⟨n, rfl, hn⟩ := exists_opening htext
      (hy.begins (notBefore_cons.mpr (not_beginsBreak (by decide))))
    exact ⟨'"' :: '"' :: '"' :: (n ++ x ++ ['"', '"', '"']), by simp, .multiBasic hn.of_append hy⟩
  · next text _ =>
    obtain ⟨y, x, hy, rfl, rfl⟩ := readOn_of_basicFrom h
    exact ⟨'"' :: (x ++ ['"']), by simp, .basic hy⟩
  · next text =>
    obtain ⟨y, x, hy, htext, rfl⟩ := readOn_of_multiLiteralFrom h
    obtain ⟨n, rfl, hn⟩ := exists_opening htext
      (hy.begins (notBefore_cons.mpr (not_beginsBreak (by decide))))
    exact ⟨'\'' :: '\'' :: '\'' :: (n ++ x ++ ['\'', '\'', '\'']), by simp,
      .multiLiteral hn.of_append hy⟩
  · next text _ =>
    obtain ⟨x, _, ⟨rfl, hx⟩, rfl, rfl⟩ := readOn_of_literalFrom h
    exact ⟨'\'' :: (x ++ ['\'']), by simp, .literal hx⟩
  · cases h

theorem recognizes_key : Recognizes key KeyText := by
  intro text k rest h
  rw [key.eq_def] at h
  split at h
  · obtain ⟨y, x, hy, rfl, rfl⟩ := readOn_of_basicFrom h
    exact ⟨'"' :: (x ++ ['"']), by simp, .basic hy⟩
  · obtain ⟨x, _, ⟨rfl, hx⟩, rfl, rfl⟩ := readOn_of_literalFrom h
    exact ⟨'\'' :: (x ++ ['\'']), by simp, .literal hx⟩
  · dsimp only at h
    split at h
    · cases h
    · next hempty =>
      cases h
      exact ⟨_, List.takeWhile_append_dropWhile.symm,
        .bare (fun hnil => hempty (List.isEmpty_iff.mpr hnil)) fun _ => List.mem_takeWhile_imp⟩

/-- **A dotted key is written as it is read**, with blanks before it. -/
theorem exists_pathText {room : Nat} {text rest : List Char} {path : List String}
    (h : keyPathWithin room text = some (path, rest)) :
    ∃ b x, text = b ++ (x ++ rest) ∧ Blank b ∧ PathText path x := by
  have hkey : ∀ {text k rest}, key (skipSpaces text) = some (k, rest) → ∃ b x b', Blank b ∧
      KeyText k x ∧ Blank b' ∧ text = b ++ (x ++ (b' ++ skipSpaces rest)) := by
    intro text k rest h
    obtain ⟨b, hb, htext⟩ := exists_blank text
    obtain ⟨x, hskip, hk⟩ := recognizes_key h
    obtain ⟨b', hb', hrest⟩ := exists_blank rest
    exact ⟨b, x, b', hb, hk, hb', by rw [← hrest, ← hskip, ← htext]⟩
  have hlast : ∀ {text k rest}, key (skipSpaces text) = some (k, rest) →
      ∃ b x, text = b ++ (x ++ skipSpaces rest) ∧ Blank b ∧ PathText [k] x := fun h => by
    obtain ⟨b, x, b', hb, hk, hb', htext⟩ := hkey h
    exact ⟨b, x ++ b', by rw [htext, List.append_assoc], hb, .last hk hb'⟩
  induction room generalizing text path with
  | zero =>
    obtain ⟨⟨k, rest'⟩, hk, h⟩ := Option.bind_eq_some_iff.mp h
    dsimp only at h
    split at h
    · cases h
    · cases h
      exact hlast hk
  | succ room ih =>
    obtain ⟨⟨k, rest'⟩, hk, h⟩ := Option.bind_eq_some_iff.mp h
    dsimp only at h
    split at h
    · next z heq =>
      obtain ⟨⟨others, rest''⟩, hothers, h⟩ := Option.bind_eq_some_iff.mp h
      cases h
      obtain ⟨b, x, b', hb, hx, hb', rfl⟩ := hkey hk
      obtain ⟨b'', y, rfl, hb'', hy⟩ := ih hothers
      refine ⟨b, x ++ b' ++ '.' :: (b'' ++ y), ?_, hb, .dot hx hb' hb'' hy⟩
      rw [heq]
      simp
    · cases h
      exact hlast hk

end DeflateEcho.Toml
