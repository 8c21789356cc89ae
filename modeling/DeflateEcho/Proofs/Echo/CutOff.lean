import DeflateEcho.Proofs.Echo.Conversation

/-!
# Proofs/Echo/CutOff — a sink that gives up cuts the run short, and changes nothing before

A sink that gives up once it has taken so many bytes leaves of a run what fits into them
(`Run.cutShort`): the turns whose replies get through stay as they are, the first reply that does
not get through is cut in the middle and ends the run.  `serve_of_cutsOff` says this of serving from
anywhere, by induction on the reads; the run of a sink that takes everything is then all that is
needed to know the run of one that does not, in whatever portions it takes what it gets.
-/

namespace DeflateEcho.Echo

/-! ## Sinks that give up -/

/-- A write that is answered like this fails, with this fault: it is refused, or it takes nothing. -/
inductive WriteReply.FailsWith : WriteReply → Fault → Prop where
  | refused (fault : Fault) : FailsWith (.refused fault) fault
  | takesNothing : FailsWith (.accepted 0) { kind := .writeZero }

/-- **A sink that takes so many bytes and no more**, in portions of any size, and answers every write
behind them with the same fault.  `taken` tells from what it remembers how many it has taken. -/
structure Sink.CutsOff (sink : Sink) (taken : sink.Memory → Nat) (budget : Nat) (fault : Fault) :
    Prop where
  start : taken sink.start = 0
  takes : ∀ memory offered, 0 < offered → taken memory < budget → ∃ count memory',
    sink.write memory offered = (.accepted count, memory')
      ∧ 0 < count ∧ count ≤ offered
      ∧ taken memory' = taken memory + count ∧ taken memory' ≤ budget
  fails : ∀ memory offered, budget ≤ taken memory →
    ((sink.write memory offered).1).FailsWith fault

namespace Sink

theorem limited_write_of_lt {perWrite budget memory : Nat} (h : memory < budget)
    (spent : WriteReply) (offered : Nat) :
    (limited (some perWrite) (some budget) spent).write memory offered
      = (.accepted ((offered.min perWrite).min (budget - memory)),
          memory + (offered.min perWrite).min (budget - memory)) := by
  have hleft : ¬ some (budget - memory) = some 0 := by
    rw [Option.some.injEq]
    omega
  exact if_neg hleft

theorem limited_write_of_le {perWrite budget memory : Nat} (h : budget ≤ memory)
    (spent : WriteReply) (offered : Nat) :
    (limited (some perWrite) (some budget) spent).write memory offered = (spent, memory) := by
  have hleft : some (budget - memory) = some 0 := by rw [Nat.sub_eq_zero_of_le h]
  exact if_pos hleft

/-- A limited sink is one, however much it takes at once. -/
theorem cutsOff_limited {perWrite : Nat} (hpos : 0 < perWrite) (budget : Nat) {spent : WriteReply}
    {fault : Fault} (hspent : spent.FailsWith fault) :
    (limited (some perWrite) (some budget) spent).CutsOff (fun taken => taken) budget fault where
  start := rfl
  takes memory offered hoffered hleft := by
    refine ⟨_, _, limited_write_of_lt hleft spent offered, ?_, ?_, rfl, ?_⟩
    · exact Nat.lt_min.mpr ⟨Nat.lt_min.mpr ⟨hoffered, hpos⟩, Nat.sub_pos_of_lt hleft⟩
    · exact (Nat.min_le_left _ _).trans (Nat.min_le_left _ _)
    · exact Nat.add_le_of_le_sub' hleft.le (Nat.min_le_right _ _)
  fails memory offered hleft := by
    rw [limited_write_of_le hleft]
    exact hspent

section Writing

variable {sink : Sink} {taken : sink.Memory → Nat} {budget : Nat} {fault : Fault}
  (h : sink.CutsOff taken budget fault)
include h

/-- A write fails only where the sink has given up, and with its fault. -/
theorem CutsOff.of_failsWith {memory memory' : sink.Memory} {offered : Nat} {reply : WriteReply}
    {fault' : Fault} (hoffered : 0 < offered)
    (hwrite : sink.write memory offered = (reply, memory')) (hfails : reply.FailsWith fault') :
    fault' = fault ∧ budget - taken memory = 0 := by
  rcases Nat.lt_or_ge (taken memory) budget with hleft | hleft
  · obtain ⟨_, _, haccepted, hpos, -⟩ := h.takes memory offered hoffered hleft
    rw [hwrite] at haccepted
    cases haccepted
    cases hfails
    exact absurd hpos (Nat.lt_irrefl 0)
  · have hspent := h.fails memory offered hleft
    rw [hwrite] at hspent
    refine ⟨?_, Nat.sub_eq_zero_of_le hleft⟩
    cases hspent <;> cases hfails <;> rfl

/-- A write that takes something takes it out of what is left. -/
theorem CutsOff.of_accepted {memory memory' : sink.Memory} {offered count : Nat}
    (hoffered : 0 < offered) (hwrite : sink.write memory offered = (.accepted count, memory'))
    (hcount : count ≠ 0) :
    count ≤ offered ∧ count ≤ budget - taken memory ∧ taken memory' = taken memory + count := by
  rcases Nat.lt_or_ge (taken memory) budget with hleft | hleft
  · obtain ⟨_, _, haccepted, -, hle, htaken, hbudget⟩ := h.takes memory offered hoffered hleft
    rw [hwrite] at haccepted
    cases haccepted
    exact ⟨hle, by omega, htaken⟩
  · have hspent := h.fails memory offered hleft
    rw [hwrite] at hspent
    cases hspent
    exact absurd rfl hcount

/-- What still fits is written completely. -/
theorem CutsOff.writeAll_of_le {memory : sink.Memory} {bytes : Bytes}
    (hfits : bytes.length ≤ budget - taken memory) :
    (sink.writeAll memory bytes).fault = none
      ∧ taken (sink.writeAll memory bytes).memory = taken memory + bytes.length := by
  fun_induction writeAll sink memory bytes with
  | case1 memory bytes hempty => simp [hempty]
  | case2 memory bytes hne fault' memory' hwrite =>
    obtain ⟨-, hspent⟩ := h.of_failsWith (Nat.pos_of_ne_zero hne) hwrite (.refused fault')
    omega
  | case3 memory bytes hne memory' hwrite =>
    obtain ⟨-, hspent⟩ := h.of_failsWith (Nat.pos_of_ne_zero hne) hwrite .takesNothing
    omega
  | case4 memory bytes hne count memory' hwrite hcount rest ih =>
    obtain ⟨hle, -, htaken⟩ := h.of_accepted (Nat.pos_of_ne_zero hne) hwrite hcount
    have hdrop : (bytes.drop count).length = bytes.length - count := List.length_drop
    obtain ⟨hnone, hrest⟩ := ih (by omega)
    refine ⟨hnone, hrest.trans ?_⟩
    omega

/-- What does not fit any more is cut off where the sink gives up. -/
theorem CutsOff.writeAll_of_lt {memory : sink.Memory} {bytes : Bytes}
    (hcut : budget - taken memory < bytes.length) :
    (sink.writeAll memory bytes).fault = some fault
      ∧ (sink.writeAll memory bytes).sent = bytes.take (budget - taken memory) := by
  fun_induction writeAll sink memory bytes with
  | case1 memory bytes hempty => omega
  | case2 memory bytes hne fault' memory' hwrite =>
    obtain ⟨rfl, hspent⟩ := h.of_failsWith (Nat.pos_of_ne_zero hne) hwrite (.refused fault')
    exact ⟨rfl, by rw [hspent, List.take_zero]⟩
  | case3 memory bytes hne memory' hwrite =>
    obtain ⟨rfl, hspent⟩ := h.of_failsWith (Nat.pos_of_ne_zero hne) hwrite .takesNothing
    exact ⟨rfl, by rw [hspent, List.take_zero]⟩
  | case4 memory bytes hne count memory' hwrite hcount rest ih =>
    obtain ⟨-, hle, htaken⟩ := h.of_accepted (Nat.pos_of_ne_zero hne) hwrite hcount
    have hdrop : (bytes.drop count).length = bytes.length - count := List.length_drop
    obtain ⟨hfault, hsent⟩ := ih (by omega)
    have hsplit : budget - taken memory = count + (budget - taken memory') := by omega
    refine ⟨hfault, ?_⟩
    rw [hsplit, List.take_add]
    exact congrArg _ hsent

end Writing

end Sink

/-! ## Runs that are cut short -/

/-- The log says that a reply was sent. -/
def LogEvent.isReply : LogEvent → Bool
  | sentReply _ => true
  | _ => false

/-- A turn whose reply is cut off: nothing behind it is logged any more. -/
def Turn.cutOff (t : Turn) (left : Nat) : Turn :=
  ⟨t.read, t.sent.take left, t.log.takeWhile fun event => !event.isReply⟩

/-- **What is left of a run** whose last turns find no room for what they send. -/
def Run.cutShort (fault : Fault) (ending : Ending) : (left : Nat) → List Turn → Run
  | _, [] => ⟨[], ending⟩
  | left, t :: turns =>
    if t.sent.length ≤ left then
      let rest := cutShort fault ending (left - t.sent.length) turns
      ⟨t :: rest.turns, rest.ending⟩
    else ⟨[t.cutOff left], .failed (.stream fault)⟩

section CutShort

variable {fault : Fault} {ending : Ending} {left : Nat} {turns : List Turn}

/-- A run that fits stays as it is. -/
theorem cutShort_of_le (h : (turns.flatMap Turn.sent).length ≤ left) :
    Run.cutShort fault ending left turns = ⟨turns, ending⟩ := by
  induction turns generalizing left with
  | nil => rfl
  | cons t turns ih =>
    rw [List.flatMap_cons, List.length_append] at h
    rw [Run.cutShort, if_pos (by omega), ih (by omega)]

/-- **A run that does not fit keeps its first turns, and ends in the middle of a reply.** -/
theorem cutShort_of_lt (h : left < (turns.flatMap Turn.sent).length) :
    ∃ kept t rest room, turns = kept ++ t :: rest
      ∧ left = (kept.flatMap Turn.sent).length + room ∧ room < t.sent.length
      ∧ Run.cutShort fault ending left turns
        = ⟨kept ++ [t.cutOff room], .failed (.stream fault)⟩ := by
  induction turns generalizing left with
  | nil => exact absurd h (Nat.not_lt_zero left)
  | cons t turns ih =>
    rw [List.flatMap_cons, List.length_append] at h
    by_cases hfits : t.sent.length ≤ left
    · have hrest : left - t.sent.length < (turns.flatMap Turn.sent).length := by omega
      obtain ⟨kept, cut, rest, room, rfl, hleft, hroom, hcut⟩ := ih hrest
      refine ⟨t :: kept, cut, rest, room, rfl, ?_, hroom, ?_⟩
      · rw [List.flatMap_cons, List.length_append]
        omega
      · rw [Run.cutShort, if_pos hfits, hcut, List.cons_append]
    · exact ⟨[], t, turns, left, rfl, (Nat.zero_add left).symm, by omega,
        by rw [Run.cutShort, if_neg hfits, List.nil_append]⟩

/-- What is sent up to a cut is what would have been sent, cut there. -/
theorem sent_cutOff (kept rest : List Turn) {t : Turn} {room : Nat} (h : room ≤ t.sent.length) :
    (kept ++ [t.cutOff room]).flatMap Turn.sent
      = ((kept ++ t :: rest).flatMap Turn.sent).take ((kept.flatMap Turn.sent).length + room) := by
  have hlast : [t.cutOff room].flatMap Turn.sent = t.sent.take room := List.append_nil _
  rw [List.flatMap_append, hlast, List.flatMap_append, List.take_length_add_append,
    List.flatMap_cons, List.take_append_of_le_length h]

end CutShort

/-! ## Serving -/

/-- Before a reply is written, nothing says that it was. -/
theorem isReply_of_mem_receive (s : Session) (read : Read) :
    ∀ event ∈ (receive s read).2.2, event.isReply = false := by
  unfold receive
  split
  · simp
  · split
    · simp [LogEvent.isReply]
    · split
      · simp [LogEvent.isReply]
      · split <;> simp [LogEvent.isReply]

/-- A turn by whose reply the sink gives up is the turn of a sink that takes everything, cut off. -/
theorem cutOff_of_receive {s s' : Session} {read : Read} {reply : Bytes} {enable : Bool}
    {log : List LogEvent} (h : receive s read = (.reply reply enable, s', log)) (left : Nat)
    (more : List LogEvent) :
    Turn.cutOff ⟨read, reply, log ++ .sentReply reply.length :: more⟩ left
      = ⟨read, reply.take left, log⟩ := by
  have hlog := isReply_of_mem_receive s read
  rw [h] at hlog
  rw [Turn.cutOff, List.takeWhile_append_of_pos (fun event hevent => by simp [hlog event hevent])]
  simp [LogEvent.isReply]

/-- **A sink that gives up cuts short the run of one that takes everything**, from anywhere on. -/
theorem serve_of_cutsOff {sink : Sink} {taken : sink.Memory → Nat} {budget : Nat} {fault : Fault}
    (h : sink.CutsOff taken budget fault) (st : Standing sink) (reads : List Read) :
    serve sink st.session st.memory reads
      = Run.cutShort fault (serve .unlimited st.session () reads).ending
          (budget - taken st.memory) (serve .unlimited st.session () reads).turns := by
  induction reads generalizing st with
  | nil => rfl
  | cons read reads ih =>
    let free : Standing .unlimited := ⟨st.session, ()⟩
    rcases hreceive : receive st.session read with ⟨ending | ⟨reply, enable⟩, s, log⟩
    · have hfree : receive free.session read = (.stop ending, s, log) := hreceive
      rw [serve_of_ends (turn_of_stop hreceive), serve_of_ends (turn_of_stop hfree)]
      rfl
    · have hfree : receive free.session read = (.reply reply enable, s, log) := hreceive
      have hthrough := Sink.takesAll_unlimited.fault_eq_none () reply
      have hwhole := turn_of_reply hfree (Sink.writeAll_eq_of_fault_eq_none hthrough)
      have hturn := turn_of_reply hreceive rfl
      rw [serve_of_goesOn hwhole, Run.cutShort]
      by_cases hfits : reply.length ≤ budget - taken st.memory
      · obtain ⟨hnone, htaken⟩ := h.writeAll_of_le hfits
        rw [hnone, Sink.sent_of_fault_eq_none hnone] at hturn
        have hrest := ih ⟨(settle s enable).1, (sink.writeAll st.memory reply).memory⟩
        rw [serve_of_goesOn hturn, if_pos hfits, hrest, htaken, Nat.sub_add_eq]
        rfl
      · obtain ⟨hfault, hsent⟩ := h.writeAll_of_lt (Nat.lt_of_not_le hfits)
        rw [hfault, hsent] at hturn
        rw [serve_of_ends hturn, if_neg hfits, cutOff_of_receive hreceive]

theorem handle_eq_cutShort {sink : Sink} {taken : sink.Memory → Nat} {budget : Nat} {fault : Fault}
    (h : sink.CutsOff taken budget fault) (script : List Happening) :
    handle sink script = Run.cutShort fault (handle .unlimited script).ending budget
      (handle .unlimited script).turns := by
  have hrun := serve_of_cutsOff h {} (readsOf script)
  rwa [h.start] at hrun

/-- **A sink that gives up only cuts what is sent.**  If all that a connection sends to a sink that
takes everything fits, the runs are the same.  Otherwise just what fits is sent: the turns up to the
reply that does not fit are the same, this reply is cut off, nothing is logged or read behind it, and
the connection ends with the fault of the write.  In what portions the sink takes bytes makes no
difference. -/
theorem handle_of_cutsOff {sink : Sink} {taken : sink.Memory → Nat} {budget : Nat} {fault : Fault}
    (h : sink.CutsOff taken budget fault) (script : List Happening) :
    let whole := handle .unlimited script
    let run := handle sink script
    (whole.sent.length ≤ budget → run = whole)
      ∧ (budget < whole.sent.length →
        run.sent = whole.sent.take budget
        ∧ run.ending = .failed (.stream fault)
        ∧ ∃ kept t rest room, whole.turns = kept ++ t :: rest
          ∧ budget = (kept.flatMap Turn.sent).length + room ∧ room < t.sent.length
          ∧ run.turns = kept ++ [t.cutOff room])
      ∧ ∀ perWrite spent, 0 < perWrite → spent.FailsWith fault →
        handle (.limited (some perWrite) (some budget) spent) script = run := by
  have hrun := handle_eq_cutShort h script
  refine ⟨fun hfits => ?_, fun hcut => ?_, fun perWrite spent hpos hspent => ?_⟩
  · exact hrun.trans (cutShort_of_le hfits)
  · obtain ⟨kept, t, rest, room, hturns, hbudget, hroom, hcutShort⟩ := cutShort_of_lt hcut
    rw [hrun, hcutShort]
    refine ⟨?_, rfl, kept, t, rest, room, hturns, hbudget, hroom, rfl⟩
    rw [Run.sent, Run.sent, hturns, hbudget]
    exact sent_cutOff kept rest hroom.le
  · exact (handle_eq_cutShort (Sink.cutsOff_limited hpos budget hspent) script).trans hrun.symm

/-- A sink with room for both replies, and one whose room runs out in the activating reply. -/
theorem handle_of_cutsOff_activation :
    let script : List Happening := [.data (ascii "ab"), .data (ascii "COMPRESSx")]
    let whole := handle .unlimited script
    let run := handle (.limited (some 3) (some 9) (.accepted 0)) script
    handle (.limited (some 3) (some 20) (.accepted 0)) script = whole
      ∧ run.sent = ascii "abCOMPRES"
      ∧ run.ending = .failed (.stream { kind := .writeZero })
      ∧ run.turns.map Turn.log
        = [[.readChunk 2 .plaintext, .received "ab", .sentReply 2],
            [.readChunk 9 .plaintext, .received "COMPRESSx"]] := by
  intro script whole run
  have hwhole : whole.sent = ascii "abCOMPRESSThisIsLong" := by
    -- What is sent is what a conversation over these reads sends, without the empty one behind them.
    have hreads : ∀ read ∈ [Read.chunk (ascii "ab"), .chunk (ascii "COMPRESSx")],
        read.FitsBuffer := by decide
    have halone : Conversation.Alone (.ofReads .unlimited _) _ :=
      Conversation.alone_ofReads hreads
    have hscript : scriptOf [.chunk (ascii "ab"), .chunk (ascii "COMPRESSx")] = script := by
      decide +kernel
    have hsent := halone.sent
    rw [hscript] at hsent
    exact hsent.symm.trans (by decide +kernel)
  have hfits : whole.sent.length ≤ 20 := by
    rw [hwhole]
    decide
  have hcut : 9 < whole.sent.length := by
    rw [hwhole]
    decide
  have hsame := (handle_of_cutsOff
    (Sink.cutsOff_limited (Nat.succ_pos 2) 20 .takesNothing) script).1 hfits
  obtain ⟨hsent, hending, -⟩ := (handle_of_cutsOff
    (Sink.cutsOff_limited (Nat.succ_pos 2) 9 .takesNothing) script).2.1 hcut
  refine ⟨hsame, hsent.trans ?_, hending, ?_⟩
  · rw [hwhole]
    decide
  · decide +kernel

end DeflateEcho.Echo
