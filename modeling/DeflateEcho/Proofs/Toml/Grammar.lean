import Mathlib
import DeflateEcho.Toml.Syntax

/-!
# Proofs/Toml/Grammar — how values, lines and files are written

The scanners say how a text is taken apart.  This is the other side: the relation between what is
meant and **every text that spells it**, production by production.  `Spelled` relates a term to its
texts, whatever its depth, and `FileText` a list of lines to the texts of a file.  A term keeps an
inline table as the assignments that stand in it, since whether they go together is not a matter of
spelling.

Two things are left to those who read numbers: a whole number has to fit into 64 bits, and a decimal
one must not lie above every finite number of 64 bits.
-/

namespace DeflateEcho.Toml

/-! ## Blanks, remarks and ends of lines -/

/-- Blanks inside a line. -/
def Blank (x : List Char) : Prop := ∀ c ∈ x, isSpace c

/-- The end of a line, where the text goes on behind it. -/
inductive LineBreak : List Char → Prop where
  | lf : LineBreak ['\n']
  | crlf : LineBreak ['\r', '\n']

/-- What may stand behind a statement: blanks, and a comment if there is one. -/
inductive Remark : List Char → Prop where
  | blank {b : List Char} (hb : Blank b) : Remark b
  | comment {b c : List Char} (hb : Blank b) (hc : ∀ x ∈ c, isPlain x) : Remark (b ++ '#' :: c)

/-- What may stand between the parts of an array: blanks and whole ends of lines. -/
inductive Gap : List Char → Prop where
  | blank {b : List Char} (hb : Blank b) : Gap b
  | line {r n g : List Char} (hr : Remark r) (hn : LineBreak n) (hg : Gap g) : Gap (r ++ n ++ g)

/-- What a backslash at the end of a line joins over: blanks and ends of lines. -/
inductive Margin : List Char → Prop where
  | nil : Margin []
  | space {c : Char} {x : List Char} (hc : isSpace c) (hx : Margin x) : Margin (c :: x)
  | line {n x : List Char} (hn : LineBreak n) (hx : Margin x) : Margin (n ++ x)

/-- A text that does not go on with a character of some kind. -/
def NotBefore (p : Char → Prop) (x : List Char) : Prop := ∀ c ∈ x.head?, ¬ p c

/-! ## Texts -/

/-- The letters that stand for a character behind a backslash. -/
def letterEscapes : List (Char × Char) :=
  [('b', '\x08'), ('t', '\t'), ('n', '\n'), ('f', '\x0c'), ('r', '\r'), ('"', '"'), ('\\', '\\')]

/-- Hexadecimal digits that spell the code point of a character. -/
def CodePoint (c : Char) (ds : List Char) : Prop :=
  (∀ d ∈ ds, isDigitOf 16 d) ∧ valueOf 16 ds = c.toNat

/-- How a character may be written between double quotes. -/
inductive BasicChar : Char → List Char → Prop where
  | plain {c : Char} (hc : isPlain c) (hquote : c ≠ '"') (hslash : c ≠ '\\') : BasicChar c [c]
  | letter {l c : Char} (h : (l, c) ∈ letterEscapes) : BasicChar c ['\\', l]
  | four {c : Char} {ds : List Char} (hlength : ds.length = 4) (h : CodePoint c ds) :
    BasicChar c ('\\' :: 'u' :: ds)
  | eight {c : Char} {ds : List Char} (hlength : ds.length = 8) (h : CodePoint c ds) :
    BasicChar c ('\\' :: 'U' :: ds)

/-- How a text may be written between double quotes, on one line. -/
inductive BasicText : List Char → List Char → Prop where
  | nil : BasicText [] []
  | char {c : Char} {x s y : List Char} (hc : BasicChar c x) (hs : BasicText s y) :
    BasicText (c :: s) (x ++ y)

/-- A text that may stand between single quotes, on one line. -/
def LiteralText (x : List Char) : Prop := ∀ c ∈ x, isPlain c ∧ c ≠ '\''

/-- A character at which a margin goes on. -/
def inMargin (c : Char) : Prop := isSpace c ∨ c = '\n' ∨ c = '\r'

/-- How a text may be written between three double quotes.  A quote stands for itself if no two
others follow it, and a backslash at the end of a line takes the whole margin with it. -/
inductive MultiBasicText : List Char → List Char → Prop where
  | nil : MultiBasicText [] []
  | char {c : Char} {x s y : List Char} (hc : BasicChar c x) (hs : MultiBasicText s y) :
    MultiBasicText (c :: s) (x ++ y)
  | quote {s y : List Char} (hy : ¬ ['"', '"'] <+: y) (hs : MultiBasicText s y) :
    MultiBasicText ('"' :: s) ('"' :: y)
  | line {n s y : List Char} (hn : LineBreak n) (hs : MultiBasicText s y) :
    MultiBasicText ('\n' :: s) (n ++ y)
  | joined {b n m s y : List Char} (hb : Blank b) (hn : LineBreak n) (hm : Margin m)
    (hy : NotBefore inMargin y) (hs : MultiBasicText s y) :
    MultiBasicText s ('\\' :: (b ++ n ++ m ++ y))

/-- How a text may be written between three single quotes. -/
inductive MultiLiteralText : List Char → List Char → Prop where
  | nil : MultiLiteralText [] []
  | char {c : Char} {s y : List Char} (hc : isPlain c) (hquote : c ≠ '\'')
    (hs : MultiLiteralText s y) : MultiLiteralText (c :: s) (c :: y)
  | quote {s y : List Char} (hy : ¬ ['\'', '\''] <+: y) (hs : MultiLiteralText s y) :
    MultiLiteralText ('\'' :: s) ('\'' :: y)
  | line {n s y : List Char} (hn : LineBreak n) (hs : MultiLiteralText s y) :
    MultiLiteralText ('\n' :: s) (n ++ y)

/-- What may stand between three opening quotes and the text: the end of a line, which does not
belong to the text, or nothing if the text does not begin with one. -/
inductive Opening : List Char → List Char → Prop where
  | line {n y : List Char} (hn : LineBreak n) : Opening n y
  | none {y : List Char} (hy : NotBefore (fun c => c = '\n' ∨ c = '\r') y) : Opening [] y

/-- How a text may be quoted. -/
inductive StringText : String → List Char → Prop where
  | basic {s x : List Char} (h : BasicText s x) : StringText (String.ofList s) ('"' :: (x ++ ['"']))
  | literal {x : List Char} (h : LiteralText x) :
    StringText (String.ofList x) ('\'' :: (x ++ ['\'']))
  | multiBasic {n s x : List Char} (hn : Opening n x) (h : MultiBasicText s x) :
    StringText (String.ofList s) ('"' :: '"' :: '"' :: (n ++ x ++ ['"', '"', '"']))
  | multiLiteral {n s x : List Char} (hn : Opening n x) (h : MultiLiteralText s x) :
    StringText (String.ofList s) ('\'' :: '\'' :: '\'' :: (n ++ x ++ ['\'', '\'', '\'']))

/-! ## Keys -/

/-- How a key may be written. -/
inductive KeyText : String → List Char → Prop where
  | bare {x : List Char} (hx : x ≠ []) (h : ∀ c ∈ x, isBare c) : KeyText (String.ofList x) x
  | basic {s x : List Char} (h : BasicText s x) : KeyText (String.ofList s) ('"' :: (x ++ ['"']))
  | literal {x : List Char} (h : LiteralText x) : KeyText (String.ofList x) ('\'' :: (x ++ ['\'']))

/-- How a dotted key may be written, with the blanks behind it. -/
inductive PathText : List String → List Char → Prop where
  | last {k : String} {x b : List Char} (hk : KeyText k x) (hb : Blank b) : PathText [k] (x ++ b)
  | dot {k : String} {path : List String} {x b b' y : List Char} (hk : KeyText k x) (hb : Blank b)
    (hb' : Blank b') (hpath : PathText path y) : PathText (k :: path) (x ++ b ++ '.' :: (b' ++ y))

/-! ## Numbers -/

/-- Digits of a base, with single underscores between them. -/
inductive Digits (base : Nat) : List Char → List Char → Prop where
  | one {d : Char} (hd : isDigitOf base d) : Digits base [d] [d]
  | next {d : Char} {ds x : List Char} (hd : isDigitOf base d) (h : Digits base ds x) :
    Digits base (d :: ds) (d :: x)
  | underscore {d : Char} {ds x : List Char} (hd : isDigitOf base d) (h : Digits base ds x) :
    Digits base (d :: ds) (d :: '_' :: x)

/-- Decimal digits without a leading zero. -/
inductive WholeText : List Char → List Char → Prop where
  | zero : WholeText ['0'] ['0']
  | digits {ds x : List Char} (h : Digits 10 ds x) (hds : NotBefore (· = '0') ds) : WholeText ds x

/-- A sign, if there is one, and whether it is a minus. -/
inductive SignText : Bool → List Char → Prop where
  | none : SignText false []
  | plus : SignText false ['+']
  | minus : SignText true ['-']

/-- A number with its sign. -/
def signed (negative : Bool) (n : Nat) : Int := if negative then -n else n

/-- The letters behind a zero that announce another base than ten. -/
def baseLetters : List (Char × Nat) := [('x', 16), ('o', 8), ('b', 2)]

/-- How a whole number may be written. -/
inductive IntegerText : Int → List Char → Prop where
  | decimal {negative : Bool} {s ds x : List Char} (hs : SignText negative s)
    (h : WholeText ds x) : IntegerText (signed negative (valueOf 10 ds)) (s ++ x)
  | based {letter : Char} {base : Nat} {ds x : List Char} (hbase : (letter, base) ∈ baseLetters)
    (h : Digits base ds x) : IntegerText (valueOf base ds) ('0' :: letter :: x)

/-- The places of a number behind its point, if there are any. -/
inductive FractionText : List Char → List Char → Prop where
  | none : FractionText [] []
  | places {ds x : List Char} (h : Digits 10 ds x) : FractionText ds ('.' :: x)

/-- The power of ten of a number, if there is one. -/
inductive ExponentText : Option Int → List Char → Prop where
  | none : ExponentText .none []
  | power {c : Char} {negative : Bool} {s ds x : List Char} (hc : c = 'e' ∨ c = 'E')
    (hs : SignText negative s) (h : Digits 10 ds x) :
    ExponentText (some (signed negative (valueOf 10 ds))) (c :: (s ++ x))

/-- How a floating-point number may be written: with places behind the point, with a power of ten,
or with both. -/
inductive FloatText : Number.Binary64 → List Char → Prop where
  | mk {negative : Bool} {s whole x places y z : List Char} {power : Option Int}
    (hs : SignText negative s) (hwhole : WholeText whole x) (hplaces : FractionText places y)
    (hpower : ExponentText power z) (hsome : places ≠ [] ∨ power ≠ .none) :
    FloatText (Number.Binary64.ofDecimal negative (valueOf 10 (whole ++ places))
      (power.getD 0 - places.length)) (s ++ x ++ y ++ z)

/-! ## Dates and times -/

/-- A decimal number of so many digits. -/
def Field (count : Nat) (x : List Char) : Prop := x.length = count ∧ ∀ c ∈ x, isDigitOf 10 c

/-- A day of the calendar. -/
inductive DateText : List Char → Prop where
  | mk {year month day : List Char} (hyear : Field 4 year) (hmonth : Field 2 month)
    (hday : Field 2 day) (hm : 1 ≤ valueOf 10 month ∧ valueOf 10 month ≤ 12)
    (hd : 1 ≤ valueOf 10 day ∧ valueOf 10 day ≤ daysIn (valueOf 10 year) (valueOf 10 month)) :
    DateText (year ++ '-' :: (month ++ '-' :: day))

/-- The parts of a second, if there are any. -/
inductive SecondPartsText : List Char → Prop where
  | none : SecondPartsText []
  | parts {x : List Char} (hx : x ≠ []) (h : ∀ c ∈ x, isDigitOf 10 c) : SecondPartsText ('.' :: x)

/-- A time of day. -/
inductive TimeText : List Char → Prop where
  | mk {hour minute second parts : List Char} (hhour : Field 2 hour) (hminute : Field 2 minute)
    (hsecond : Field 2 second)
    (h : valueOf 10 hour ≤ 23 ∧ valueOf 10 minute ≤ 59 ∧ valueOf 10 second ≤ 60)
    (hparts : SecondPartsText parts) :
    TimeText (hour ++ ':' :: (minute ++ ':' :: (second ++ parts)))

/-- An offset from universal time, if there is one. -/
inductive OffsetText : List Char → Prop where
  | none : OffsetText []
  | universal {c : Char} (hc : c = 'Z' ∨ c = 'z') : OffsetText [c]
  | shifted {c : Char} {hour minute : List Char} (hc : c = '+' ∨ c = '-') (hhour : Field 2 hour)
    (hminute : Field 2 minute) (h : valueOf 10 hour ≤ 23 ∧ valueOf 10 minute ≤ 59) :
    OffsetText (c :: (hour ++ ':' :: minute))

/-- A date, a date with a time, or a time. -/
inductive DateTimeText : List Char → Prop where
  | date {d : List Char} (hd : DateText d) : DateTimeText d
  | both {d t o : List Char} {c : Char} (hd : DateText d) (hc : c = 'T' ∨ c = 't' ∨ c = ' ')
    (ht : TimeText t) (ho : OffsetText o) : DateTimeText (d ++ c :: (t ++ o))
  | time {t : List Char} (ht : TimeText t) : DateTimeText t

/-! ## Values -/

/-- How a value without parts may be written. -/
inductive ScalarText : Value → List Char → Prop where
  | string {s : String} {x : List Char} (h : StringText s x) : ScalarText (.string s) x
  | integer {n : Int} {x : List Char} (h : IntegerText n x) (hn : -2 ^ 63 ≤ n ∧ n < 2 ^ 63) :
    ScalarText (.integer n) x
  | float {v : Number.Binary64} {x : List Char} (h : FloatText v x) (hv : v ≠ .infinite false) :
    ScalarText (.float v) x
  | infinity {negative : Bool} {s : List Char} (hs : SignText negative s) :
    ScalarText (.float (.infinite negative)) (s ++ ['i', 'n', 'f'])
  | nan {negative : Bool} {s : List Char} (hs : SignText negative s) :
    ScalarText (.float .nan) (s ++ ['n', 'a', 'n'])
  | true : ScalarText (.boolean true) ['t', 'r', 'u', 'e']
  | false : ScalarText (.boolean false) ['f', 'a', 'l', 's', 'e']
  | dateTime {x : List Char} (h : DateTimeText x) : ScalarText .dateTime x

/-- A value as it is written: an inline table is the assignments in it. -/
inductive Term where
  | scalar (v : Value)
  | array (items : List Term)
  | inline (assignments : List (List String × Term))

section Parts

variable (spelled : Term → List Char → Prop)

/-- How the items of an array may be written; a comma may stand behind the last one. -/
inductive ItemsText : List Term → List Char → Prop where
  | none {g : List Char} (hg : Gap g) : ItemsText [] g
  | last {g x g' : List Char} {t : Term} (hg : Gap g) (ht : spelled t x) (hg' : Gap g') :
    ItemsText [t] (g ++ (x ++ g'))
  | comma {g x g' y : List Char} {t : Term} {items : List Term} (hg : Gap g) (ht : spelled t x)
    (hg' : Gap g') (hitems : ItemsText items y) :
    ItemsText (t :: items) (g ++ (x ++ (g' ++ ',' :: y)))

/-- How an assignment may be written. -/
inductive AssignmentText : List String × Term → List Char → Prop where
  | mk {path : List String} {t : Term} {x b y : List Char} (hpath : PathText path x) (hb : Blank b)
    (ht : spelled t y) : AssignmentText (path, t) (x ++ '=' :: (b ++ y))

/-- How the assignments of an inline table may be written. -/
inductive EntriesText : List (List String × Term) → List Char → Prop where
  | last {b x b' : List Char} {entry : List String × Term} (hb : Blank b)
    (h : AssignmentText spelled entry x) (hb' : Blank b') : EntriesText [entry] (b ++ (x ++ b'))
  | comma {b x b' y : List Char} {entry : List String × Term}
    {entries : List (List String × Term)} (hb : Blank b) (h : AssignmentText spelled entry x)
    (hb' : Blank b') (hentries : EntriesText entries y) :
    EntriesText (entry :: entries) (b ++ (x ++ (b' ++ ',' :: y)))

end Parts

/-- **How a value may be written.** -/
inductive Spelled : Term → List Char → Prop where
  | scalar {v : Value} {x : List Char} (h : ScalarText v x) : Spelled (.scalar v) x
  | array {items : List Term} {x : List Char} (h : ItemsText Spelled items x) :
    Spelled (.array items) ('[' :: (x ++ [']']))
  | empty {b : List Char} (hb : Blank b) : Spelled (.inline []) ('\x7b' :: (b ++ ['\x7d']))
  | inline {entries : List (List String × Term)} {x : List Char}
    (h : EntriesText Spelled entries x) : Spelled (.inline entries) ('\x7b' :: (x ++ ['\x7d']))

/-! ## Files -/

/-- What a line of a file says: which table or which element of a list of tables the lines behind it
belong to, or what is at a key. -/
inductive Line (α : Type) where
  | table (path : List String)
  | element (path : List String)
  | assignment (path : List String) (content : α)

/-- How a line may be written. -/
inductive LineText : Line Term → List Char → Prop where
  | table {path : List String} {b x : List Char} (hb : Blank b) (h : PathText path x) :
    LineText (.table path) ('[' :: (b ++ (x ++ [']'])))
  | element {path : List String} {b x : List Char} (hb : Blank b) (h : PathText path x) :
    LineText (.element path) ('[' :: '[' :: (b ++ (x ++ [']', ']'])))
  | assignment {path : List String} {t : Term} {x : List Char}
    (h : AssignmentText Spelled (path, t) x) : LineText (.assignment path t) x

/-- How lines may be written one below the other, with empty lines and remarks among them. -/
inductive LinesText : List (Line Term) → List Char → Prop where
  | none {r : List Char} (hr : Remark r) : LinesText [] r
  | skip {r n y : List Char} {lines : List (Line Term)} (hr : Remark r) (hn : LineBreak n)
    (hlines : LinesText lines y) : LinesText lines (r ++ (n ++ y))
  | last {b x r : List Char} {line : Line Term} (hb : Blank b) (hline : LineText line x)
    (hr : Remark r) : LinesText [line] (b ++ (x ++ r))
  | line {b x r n y : List Char} {line : Line Term} {lines : List (Line Term)} (hb : Blank b)
    (hline : LineText line x) (hr : Remark r) (hn : LineBreak n) (hlines : LinesText lines y) :
    LinesText (line :: lines) (b ++ (x ++ (r ++ (n ++ y))))

/-- **How a file may be written**; a byte order mark may stand before the lines. -/
inductive FileText : List (Line Term) → List Char → Prop where
  | plain {lines : List (Line Term)} {x : List Char} (h : LinesText lines x) : FileText lines x
  | marked {lines : List (Line Term)} {x : List Char} (h : LinesText lines x) :
    FileText lines ('\ufeff' :: x)

/-! ## What is in a file -/

theorem LinesText.exists_lineText {lines : List (Line Term)} {x : List Char} (h : LinesText lines x) :
    ∀ line ∈ lines, ∃ y, LineText line y := by
  induction h with
  | none => simp
  | skip _ _ _ ih => exact ih
  | last _ hline => exact List.forall_mem_singleton.mpr ⟨_, hline⟩
  | line _ hline _ _ _ ih => exact List.forall_mem_cons.mpr ⟨⟨_, hline⟩, ih⟩

/-- No table is written as a value without parts. -/
theorem FileText.table_notMem {lines : List (Line Term)} {text : List Char} (h : FileText lines text)
    (path : List String) (values : List (String × Value)) :
    .assignment path (.scalar (.table values)) ∉ lines := by
  intro hmem
  obtain ⟨x, hx⟩ : ∃ x, LinesText lines x := by
    cases h with
    | plain h => exact ⟨_, h⟩
    | marked h => exact ⟨_, h⟩
  obtain ⟨y, hline⟩ := hx.exists_lineText _ hmem
  cases hline with | assignment hline =>
  cases hline with | mk _ _ hspelled =>
  cases hspelled with | scalar hscalar =>
  cases hscalar

end DeflateEcho.Toml
