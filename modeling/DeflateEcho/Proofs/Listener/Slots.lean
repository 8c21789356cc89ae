import DeflateEcho.Proofs.Listener.Order

/-!
# Proofs/Listener/Slots — slots are conserved, and bound how many sessions run

Every step leaves the number of slots as it is: the free ones, the one in hand and those of the
sessions together (`Step.conserves`).  That a slot comes back exactly once is an account of a whole
run: of the slots taken, each goes to the session of a connection or is given up with the iteration it
was taken for, and each comes back from there (`Placed.accounts`).
-/

namespace DeflateEcho.Listener.Loop

variable {l l' : Loop} {a : Action} {actions : List Action}

/-! ## Conservation -/

/-- **A step leaves the number of slots as it is.** -/
theorem Step.conserves (h : Step l a l') :
    l'.limiter.free + l'.held + l'.tasks.length = l.limiter.free + l.held + l.tasks.length := by
  cases h with
  | takesSlot hpos hopen hfree =>
    simp [held, hpos, Limiter.take]
    omega
  | begins hpos hwaiting =>
    simp [held, hpos]
    omega
  | taskEnds hpos htask =>
    have hlength := List.length_erase_of_mem htask
    have hne := List.length_pos_of_mem htask
    simp [held, Limiter.release, hlength]
    omega
  | _ => simp [held, Limiter.release, *]

theorem conserves_run (h : l.run? actions = some l') :
    l'.limiter.free + l'.held + l'.tasks.length = l.limiter.free + l.held + l.tasks.length := by
  refine run?_preserves (P := fun m =>
    m.limiter.free + m.held + m.tasks.length = l.limiter.free + l.held + l.tasks.length) ?_ h rfl
  exact fun hm hstep => hstep.conserves.trans hm

/-! ## What becomes of a slot -/

/-- Whether an action ends an iteration of the loop without a session, with a slot in hand: no
connection could be accepted, or shutdown came first. -/
def givesUp (l : Loop) (a : Action) : Bool := l.held = 1 ∧ (a = .acceptFails ∨ a = .stop)

/-- How many iterations of a run end without a session, with a slot in hand. -/
def givenUp (l : Loop) (actions : List Action) : Nat :=
  (l.visits actions).countP fun v => v.1.givesUp v.2

/-- **What becomes of a slot in one step**, where sessions run side by side.  One that is taken, or
was in hand, goes to a session, is given up, or stays in hand; and the limiter gets one back from
each session that ends and each iteration that is given up. -/
theorem Placed.accounts_step (hl : l.Placed) (hmode : l.mode = .concurrent) (h : Step l a l') :
    (if a = .takeSlot then 1 else 0) + l.held
        = (l.accepts? a).toList.length + (l.givesUp a).toNat + l'.held
      ∧ l'.limiter.free + (if a = .takeSlot then 1 else 0)
        = l.limiter.free + a.ends?.toList.length + (l.givesUp a).toNat := by
  cases h with
  | findsLimiterClosed hpos hclosed =>
    rw [hl.limiter] at hclosed
    cases hclosed
  | takesSlot hpos hopen hfree =>
    simp [held, accepts?, Action.ends?, givesUp, Limiter.take, hpos]
    omega
  | serves hpos => cases hl.slot_of_concurrent hmode hpos
  | failsToAccept hpos =>
    obtain rfl := hl.slot_of_concurrent hmode hpos
    simp [held, accepts?, Action.ends?, givesUp, Limiter.release, hpos]
  | servedEnds hpos => exact absurd hpos (hl.not_serving hmode _)
  | stopsAtConnection hpos =>
    obtain rfl := hl.slot_of_concurrent hmode hpos
    simp [held, accepts?, Action.ends?, givesUp, Limiter.release, hpos]
  | _ => simp [held, accepts?, Action.ends?, givesUp, Limiter.release, *]

theorem givenUp_cons (h : Step l a l') :
    l.givenUp (a :: actions) = (l.givesUp a).toNat + l'.givenUp actions := by
  rw [givenUp, visits_cons h, List.countP_cons, givenUp]
  cases l.givesUp a <;> simp [Nat.add_comm]

/-- **What becomes of the slots in a run**, where sessions run side by side. -/
theorem Placed.accounts (hl : l.Placed) (hmode : l.mode = .concurrent)
    (h : l.run? actions = some l') :
    actions.count .takeSlot + l.held
        = (l.acceptedIn actions).length + l.givenUp actions + l'.held
      ∧ l'.limiter.free + actions.count .takeSlot
        = l.limiter.free + (endedIn actions).length + l.givenUp actions := by
  induction actions generalizing l with
  | nil =>
    obtain rfl := run?_nil.mp h
    simp [acceptedIn, endedIn, givenUp, visits]
  | cons a actions ih =>
    obtain ⟨m, hm, hrest⟩ := run?_cons.mp h
    obtain ⟨hspent, hback⟩ := hl.accounts_step hmode hm
    obtain ⟨hspent', hback'⟩ := ih (hl.step hm) (hm.mode.trans hmode) hrest
    simp only [List.count_cons, beq_iff_eq, acceptedIn_cons hm, endedIn_cons, givenUp_cons hm,
      List.length_append]
    omega

/-! ## Slots in both modes -/

/-- **Slots where sessions run side by side**, so many of them, behind these actions of a loop. -/
structure SlotsKept (slots : Nat) (first : Loop) (actions : List Action) (l : Loop) : Prop where
  /-- Every slot is with a session, in the loop's hand, or free. -/
  conserved : l.sessions.length + l.held + l.limiter.free = slots
  held_le : l.held ≤ 1
  sessions_le : l.sessions.length ≤ slots
  /-- A connection is accepted with a slot in hand, which goes over to its session. -/
  handed : ∀ l', l.step? .accept = some l' →
    l.held = 1 ∧ l'.held = 0 ∧ l'.limiter = l.limiter
      ∧ ∃ connection, l'.sessions = connection :: l.sessions
  /-- No connection is accepted twice. -/
  once : (first.acceptedIn actions).Nodup
  /-- The session of every accepted connection has ended, once, or runs. -/
  served : (first.acceptedIn actions).Perm (endedIn actions ++ l.sessions)
  /-- Every slot that was taken went to a session, was given up, or is in hand. -/
  spent : actions.count .takeSlot = (first.acceptedIn actions).length + first.givenUp actions + l.held
  /-- One slot came back from every session that ended, and from every iteration that was given up. -/
  back : l.limiter.free + actions.count .takeSlot
    = slots + (endedIn actions).length + first.givenUp actions

/-- **Sessions one by one**, behind these actions of a loop. -/
structure OneByOne (first : Loop) (actions : List Action) (l : Loop) : Prop where
  sessions_le : l.sessions.length ≤ 1
  /-- Where a connection is accepted, the sessions of all accepted before have ended. -/
  after : ∀ l', l.step? .accept = some l' →
    l.sessions = [] ∧ (first.acceptedIn actions).Perm (endedIn actions)

theorem Placed.handed (hl : l.Placed) (hmode : l.mode = .concurrent)
    (h : l.step? .accept = some l') :
    l.held = 1 ∧ l'.held = 0 ∧ l'.limiter = l.limiter
      ∧ ∃ connection, l'.sessions = connection :: l.sessions := by
  cases step?_eq_some_iff.mp h with
  | begins hpos =>
    rw [sessions_of_awaitingConnection hpos, held, hpos]
    exact ⟨rfl, rfl, rfl, _, rfl⟩
  | serves hpos => cases hl.slot_of_concurrent hmode hpos

theorem Placed.sessions_eq_nil_of_accept (hl : l.Placed) (hmode : l.mode = .serial)
    (h : l.step? .accept = some l') : l.sessions = [] := by
  obtain hnil | ⟨connection, hpos, -⟩ := hl.sessions_of_serial hmode
  · exact hnil
  · cases step?_eq_some_iff.mp h with
    | begins hpos' => cases hpos.symm.trans hpos'
    | serves hpos' => cases hpos.symm.trans hpos'

theorem held_le_one (l : Loop) : l.held ≤ 1 := by
  unfold held
  split
  · exact Bool.toNat_le _
  · exact Nat.zero_le _

/-- **Slots are conserved, and bound how many sessions run.**  In a concurrent loop each slot is with
a session, in the loop's hand or free wherever a run gets, and comes back once from where it went; in
a serial one, no connection is accepted before the sessions of all others have ended. -/
theorem slots_conserved {mode : ServingMode} {slots : Nat} {requested : Bool}
    {actions : List Action} {l : Loop}
    (h : (start mode slots requested).run? actions = some l) :
    (mode = .concurrent → SlotsKept slots (start mode slots requested) actions l)
      ∧ (mode = .serial → OneByOne (start mode slots requested) actions l) := by
  have hplaced := (placed_start mode slots requested).run h
  have hmode : l.mode = mode := mode_run h
  have hperm := sessions_perm h
  constructor
  · rintro rfl
    have hsessions := hplaced.sessions_of_concurrent hmode
    have hconserved : l.limiter.free + l.held + l.tasks.length = slots := conserves_run h
    obtain ⟨hspent, hback⟩ := (placed_start .concurrent slots requested).accounts rfl h
    rw [← hsessions] at hconserved
    exact {
      conserved := by omega
      held_le := l.held_le_one
      sessions_le := by omega
      handed := fun l' haccept => hplaced.handed hmode haccept
      once := (numbered_start .concurrent slots requested).nodup_acceptedIn h
      served := hperm
      spent := hspent
      back := hback }
  · rintro rfl
    refine ⟨?_, fun l' haccept => ?_⟩
    · obtain hnil | ⟨connection, -, hone⟩ := hplaced.sessions_of_serial hmode
      · rw [hnil]
        exact Nat.zero_le _
      · rw [hone]
        exact Nat.le_refl _
    · have hnil := hplaced.sessions_eq_nil_of_accept hmode haccept
      rw [hnil, List.append_nil] at hperm
      exact ⟨hnil, hperm⟩

/-- Of three slots that are taken, one goes to a session that fails, one is given up when no
connection can be accepted, and one when shutdown is requested. -/
theorem slots_conserved_two :
    let actions : List Action :=
      [.look, .takeSlot, .connect, .connect, .accept, .look, .takeSlot, .acceptFails,
        .sessionEnds 0 (.failed (.codec .malformed)), .look, .takeSlot, .requestShutdown, .stop]
    let l : Loop :=
      { mode := .concurrent, position := .returned none, limiter := { free := 2 }, connected := 2
        waiting := [1], shutdown := { up := true, raisings := 1 }, seen := 1 }
    (start .concurrent 2 false).run? actions = some l
      ∧ SlotsKept 2 (start .concurrent 2 false) actions l := by
  intro actions l
  have hrun : (start .concurrent 2 false).run? actions = some l := by decide
  exact ⟨hrun, (slots_conserved hrun).1 rfl⟩

end DeflateEcho.Listener.Loop
