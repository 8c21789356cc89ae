import DeflateEcho.Echo.Conversation
import DeflateEcho.Proofs.Echo.RunLaw

/-!
# Proofs/Echo/Conversation — a conversation is the run of a connection served alone

A conversation takes its reads one by one, with anything in between.  What has become of it is what
becomes of a connection that is served in one go, from a new session, over a script that gives the
same reads (`alone_ofReads`): all of it if the conversation has ended, and otherwise all but the empty
read behind them, which is not answered (`turn_nil`).

How writes are taken shows in what is sent only by where it is cut off (`sent_prefix`).
-/

namespace DeflateEcho.Echo

variable {sink sink' : Sink} {reads : List Read}

/-! ## Scripts from reads -/

/-- What happens at the far end of a stream that gives this read. -/
def Happening.ofRead : Read → Happening
  | .chunk [] => .endOfData
  | .chunk (b :: bytes) => .data (b :: bytes)
  | .fault f => .fault f

/-- A script for these reads. -/
def scriptOf (reads : List Read) : List Happening := reads.map .ofRead

theorem reads_ofRead {read : Read} (h : read.FitsBuffer) :
    (Happening.ofRead read).reads = [read] := by
  match read with
  | .chunk [] => rfl
  | .chunk (b :: bytes) =>
    rw [Happening.ofRead, Happening.reads, buffers_of_length_le (List.cons_ne_nil b bytes) h]
    rfl
  | .fault fault => rfl

/-- It gives these reads and, as every script, an empty one. -/
theorem readsOf_scriptOf (h : ∀ read ∈ reads, read.FitsBuffer) :
    readsOf (scriptOf reads) = reads ++ [.chunk []] := by
  rw [readsOf, scriptOf]
  congr 1
  induction reads with
  | nil => rfl
  | cons read reads ih =>
    obtain ⟨hread, hreads⟩ := List.forall_mem_cons.mp h
    rw [List.map_cons, List.flatMap_cons, reads_ofRead hread, ih hreads]
    rfl

/-- **The empty read at the end of a script ends the connection**, with nothing sent. -/
theorem turn_nil (st : Standing sink) :
    ∃ ending log, turn sink st.session st.memory (.chunk [])
      = (⟨.chunk [], [], log⟩, .ends ending) := by
  obtain ⟨raw, payload, sent, next, log, hread, h, -⟩ | ⟨ending, part, log, hstops, hturn⟩ :=
    turn_cases st (.chunk [])
  · obtain rfl : [] = raw := Read.chunk.inj hread
    exact absurd h (not_answers_nil st next payload sent)
  · -- only a reply can be cut off, and an empty payload has none
    suffices hpart : part = [] from ⟨ending, log, hpart ▸ hturn⟩
    cases hstops with
    | writeFails hdecode hne =>
      obtain hnil | ⟨error, herror⟩ := st.session.decode_nil
      · exact absurd (Except.ok.inj (hdecode.symm.trans hnil)) hne
      · cases hdecode.symm.trans herror
    | _ => rfl

namespace Conversation

/-! ## Reads taken one by one -/

/-- What becomes of a new conversation with these reads. -/
def ofReads (sink : Sink) (reads : List Read) : Conversation sink := reads.foldl advance {}

theorem ofReads_append (reads more : List Read) :
    ofReads sink (reads ++ more) = more.foldl advance (ofReads sink reads) :=
  List.foldl_append

/-- The connection served alone, over a script for the same reads, which ends with them. -/
structure Alone (c : Conversation sink) (reads : List Read) : Prop where
  /-- A conversation that has ended is its whole run. -/
  ended : ∀ ending, c.ending? = some ending →
    handle sink (scriptOf reads) = ⟨c.turns.reverse, ending⟩
  /-- One that has not is its run up to the end of the script, where nothing is sent. -/
  going : c.ending? = none → ∃ ending log,
    handle sink (scriptOf reads) = ⟨c.turns.reverse ++ [⟨.chunk [], [], log⟩], ending⟩
  sent : c.sent = (handle sink (scriptOf reads)).sent

/-- An empty read ends a conversation, with nothing sent. -/
theorem advance_nil {c : Conversation sink} (h : c.ending? = none) :
    ∃ ending log, c.advance (.chunk []) = ⟨⟨.chunk [], [], log⟩ :: c.turns, .ends ending⟩ := by
  obtain ⟨turns, ⟨session, memory⟩ | ended⟩ := c
  · obtain ⟨ending, log, hturn⟩ := turn_nil (⟨session, memory⟩ : Standing sink)
    exact ⟨ending, log, by simp [advance, hturn]⟩
  · cases h

/-- The run over a script for these reads is the conversation over them, and the empty read. -/
theorem handle_scriptOf (hfits : ∀ read ∈ reads, read.FitsBuffer) {ending : Ending}
    (h : (ofReads sink (reads ++ [.chunk []])).ending? = some ending) :
    handle sink (scriptOf reads)
      = ⟨(ofReads sink (reads ++ [.chunk []])).turns.reverse, ending⟩ := by
  rw [ofReads] at h ⊢
  obtain ⟨hturns, hending⟩ := foldl_advance {} _ {} sink.start rfl ending h
  rw [handle, readsOf_scriptOf hfits, hending, hturns]
  rfl

/-- **Reads taken as they come give the run of a connection served alone.** -/
theorem alone_ofReads (hfits : ∀ read ∈ reads, read.FitsBuffer) :
    (ofReads sink reads).Alone reads := by
  have hlast : ofReads sink (reads ++ [.chunk []]) = (ofReads sink reads).advance (.chunk []) :=
    ofReads_append reads [.chunk []]
  cases hending : (ofReads sink reads).ending? with
  | none =>
    obtain ⟨ending, log, hnil⟩ := advance_nil hending
    have hended : (ofReads sink (reads ++ [.chunk []])).ending? = some ending := by
      rw [hlast, hnil]
      rfl
    have hhandle := handle_scriptOf hfits hended
    rw [hlast, hnil, List.reverse_cons] at hhandle
    refine ⟨fun _ h => (by cases hending.symm.trans h), fun _ => ⟨ending, log, hhandle⟩, ?_⟩
    rw [hhandle, Run.sent, sent, List.flatMap_append]
    exact (List.append_nil _).symm
  | some ending =>
    have hsame : (ofReads sink reads).advance (.chunk []) = ofReads sink reads := by
      unfold ending? at hending
      split at hending
      · next hafter => exact advance_of_ended hafter _
      · cases hending
    have hended : (ofReads sink (reads ++ [.chunk []])).ending? = some ending := by
      rw [hlast, hsame, hending]
    have hhandle := handle_scriptOf hfits hended
    rw [hlast, hsame] at hhandle
    refine ⟨fun other h => ?_, fun h => (by cases hending.symm.trans h), ?_⟩
    · rw [hhandle, Option.some.inj (hending.symm.trans h)]
    · rw [hhandle]
      rfl

end Conversation

/-! ## Sinks -/

section Sinks

variable (hsink : sink'.TakesAll)
include hsink

/-- **From the same session, what is sent to one sink is the beginning of what is sent to another that
takes everything**, and all of it unless it is cut off, which ends the connection. -/
theorem turn_follows (st : Standing sink) (st' : Standing sink') (h : st'.session = st.session)
    (read : Read) :
    (turn sink st.session st.memory read).1.sent
        <+: (turn sink' st'.session st'.memory read).1.sent
      ∧ ∀ session memory, (turn sink st.session st.memory read).2 = .goesOn session memory →
        (turn sink st.session st.memory read).1.sent
            = (turn sink' st'.session st'.memory read).1.sent
          ∧ ∃ memory', (turn sink' st'.session st'.memory read).2 = .goesOn session memory' := by
  rcases hreceive : receive st.session read with ⟨ending | ⟨wire, enable⟩, s, log⟩
  · rw [turn_of_stop hreceive, turn_of_stop (h ▸ hreceive)]
    exact ⟨List.prefix_rfl, nofun⟩
  · have hfault' := hsink.fault_eq_none st'.memory wire
    have hsent' := Sink.sent_of_fault_eq_none hfault'
    rw [turn_of_reply hreceive rfl, turn_of_reply (h ▸ hreceive) rfl, hfault']
    cases hfault : (sink.writeAll st.memory wire).fault with
    | some fault =>
      refine ⟨?_, nofun⟩
      dsimp only
      rw [hsent']
      exact (Sink.sent_of_fault_eq_some hfault).1
    | none =>
      dsimp only
      rw [hsent', Sink.sent_of_fault_eq_none hfault]
      refine ⟨List.prefix_rfl, fun session memory hgoes => ⟨rfl, ?_⟩⟩
      rw [← (After.goesOn.inj hgoes).1]
      exact ⟨_, rfl⟩

namespace Conversation

omit hsink in
/-- **One conversation follows another**: what it sent is the beginning of what the other one sent,
and all of it as long as it goes on, with the same session. -/
structure Follows (c : Conversation sink) (u : Conversation sink') : Prop where
  sent : c.sent <+: u.sent
  going : ∀ session memory, c.after = .goesOn session memory →
    c.sent = u.sent ∧ ∃ memory', u.after = .goesOn session memory'

omit hsink in
theorem advance_of_going {c : Conversation sink} {session : Session} {memory : sink.Memory}
    (h : c.after = .goesOn session memory) (read : Read) :
    c.advance read = ⟨(turn sink session memory read).1 :: c.turns,
      (turn sink session memory read).2⟩ := by
  rw [advance, h]

omit hsink in
theorem sent_cons (t : Turn) (turns : List Turn) (after after' : After sink) :
    sent ⟨t :: turns, after⟩ = sent ⟨turns, after'⟩ ++ t.sent := by
  simp [sent]

omit hsink in
/-- What is sent stays sent. -/
theorem sent_prefix_advance (c : Conversation sink) (read : Read) :
    c.sent <+: (c.advance read).sent := by
  cases hafter : c.after with
  | ends ending => rw [advance_of_ended hafter]
  | goesOn session memory =>
    rw [advance_of_going hafter, sent_cons _ _ _ c.after]
    exact List.prefix_append _ _

theorem Follows.advance {c : Conversation sink} {u : Conversation sink'} (h : Follows c u)
    (read : Read) : Follows (c.advance read) (u.advance read) := by
  cases hafter : c.after with
  | ends ending =>
    rw [advance_of_ended hafter]
    refine ⟨h.sent.trans (u.sent_prefix_advance read), fun session memory hgoes => ?_⟩
    cases hafter.symm.trans hgoes
  | goesOn session memory =>
    obtain ⟨hsame, memory', hafter'⟩ := h.going session memory hafter
    obtain ⟨hsent, hgoing⟩ :=
      turn_follows hsink ⟨session, memory⟩ ⟨session, memory'⟩ rfl read
    rw [advance_of_going hafter, advance_of_going hafter']
    refine ⟨?_, fun s m hgoes => ?_⟩
    · rw [sent_cons _ _ _ c.after, sent_cons _ _ _ u.after]
      change c.sent ++ _ <+: u.sent ++ _
      rw [hsame]
      exact (List.prefix_append_right_inj _).mpr hsent
    · obtain ⟨hall, hexists⟩ := hgoing s m hgoes
      refine ⟨?_, hexists⟩
      rw [sent_cons _ _ _ c.after, sent_cons _ _ _ u.after]
      change c.sent ++ _ = u.sent ++ _
      rw [hsame, hall]

/-- **How writes are taken shows in what is sent only by where it is cut off.** -/
theorem sent_prefix (sink : Sink) (reads : List Read) :
    (ofReads sink reads).sent <+: (ofReads sink' reads).sent := by
  suffices h : ∀ (c : Conversation sink) (u : Conversation sink'), Follows c u →
      Follows (reads.foldl Conversation.advance c) (reads.foldl Conversation.advance u) by
    refine (h {} {} ⟨List.prefix_rfl, fun session memory hgoes => ⟨rfl, sink'.start, ?_⟩⟩).sent
    rw [(After.goesOn.inj hgoes).1]
  induction reads with
  | nil => exact fun c u h => h
  | cons read reads ih => exact fun c u h => ih _ _ (h.advance hsink read)

end Conversation

end Sinks

end DeflateEcho.Echo
