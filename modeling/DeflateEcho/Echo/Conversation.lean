import DeflateEcho.Echo.Connection

/-!
# Echo/Conversation — a connection that is being served, read by read

Where many connections are served at a time, each goes on when its next read arrives.  A
`Conversation` is a connection between two reads.  `foldl_advance` says that reads taken one by one
give the run that they give when they are served in one go.
-/

namespace DeflateEcho.Echo

/-- A connection between two reads: its turns, the latest one first, and where it stands. -/
structure Conversation (sink : Sink) where
  turns : List Turn := []
  after : After sink := .goesOn {} sink.start

namespace Conversation

variable {sink : Sink}

/-- How it has ended, if it has. -/
def ending? (c : Conversation sink) : Option Ending :=
  match c.after with
  | .ends ending => some ending
  | .goesOn _ _ => none

/-- Takes one read; an ended conversation takes none. -/
def advance (c : Conversation sink) (read : Read) : Conversation sink :=
  match c.after with
  | .ends _ => c
  | .goesOn s memory =>
    let (t, after) := turn sink s memory read
    ⟨t :: c.turns, after⟩

/-- The bytes sent so far. -/
def sent (c : Conversation sink) : Bytes := c.turns.reverse.flatMap Turn.sent

theorem advance_of_ended {c : Conversation sink} {ending : Ending} (h : c.after = .ends ending)
    (read : Read) : c.advance read = c := by
  simp [advance, h]

theorem foldl_advance_of_ended {c : Conversation sink} {ending : Ending}
    (h : c.after = .ends ending) (reads : List Read) : reads.foldl advance c = c := by
  induction reads with
  | nil => rfl
  | cons read reads ih => rw [List.foldl_cons, advance_of_ended h, ih]

/-- **Reads taken one by one give the run that they give when they are served in one go**, as soon
as they end the conversation. -/
theorem foldl_advance (c : Conversation sink) (reads : List Read) (s : Session)
    (memory : sink.Memory) (h : c.after = .goesOn s memory) (ending : Ending)
    (he : (reads.foldl advance c).ending? = some ending) :
    (reads.foldl advance c).turns.reverse = c.turns.reverse ++ (serve sink s memory reads).turns
      ∧ ending = (serve sink s memory reads).ending := by
  induction reads generalizing c s memory with
  | nil => simp [ending?, h] at he
  | cons read reads ih =>
    rw [List.foldl_cons] at he ⊢
    have hc : c.advance read
        = ⟨(turn sink s memory read).1 :: c.turns, (turn sink s memory read).2⟩ := by
      simp [advance, h]
    rw [hc] at he ⊢
    rw [serve]
    rcases ht : turn sink s memory read with ⟨t, after⟩
    rw [ht] at he
    cases after with
    | ends e =>
      rw [foldl_advance_of_ended rfl] at he ⊢
      simp only [ending?, Option.some.injEq] at he
      simp [he]
    | goesOn s' memory' =>
      obtain ⟨h1, h2⟩ := ih _ s' memory' rfl he
      simp [h1, h2]

end Conversation

end DeflateEcho.Echo
