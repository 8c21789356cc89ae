import DeflateEcho.Proofs.Listener.Steps

/-!
# Proofs/Listener/Shutdown — the loop returns when shutdown is requested, and for no other reason

A run begins without having seen a request, and one that sees a request returns; so as long as the
loop has not returned, any request there was is still to wake it (`Heeds`), whenever it came.  From
then on the loop accepts at most the connection that it is about to wait for (`accepts_le`).  And as
it matters only whether there was a request, one more changes nothing (`Alike.run`).
-/

namespace DeflateEcho.Listener.Loop

variable {l l' m : Loop} {a : Action} {actions more : List Action}

/-! ## Requests -/

/-- **The loop heeds requests**: as long as it has not returned, any request there was is still to
wake it, and if it has, it is because there was one. -/
structure Heeds (l : Loop) : Prop where
  up_iff : l.shutdown.up = true ↔ 0 < l.shutdown.raisings
  seen : l.hasReturned = false → l.seen = 0
  returned : ∀ error?, l.position = .returned error? → error? = none ∧ l.shutdown.up = true

theorem heeds_of_going (hup : l.shutdown.up = true ↔ 0 < l.shutdown.raisings) (hseen : l.seen = 0)
    (hgoing : l.hasReturned = false) : l.Heeds where
  up_iff := hup
  seen _ := hseen
  returned error? hpos := by simp [hasReturned, hpos] at hgoing

theorem heeds_start (mode : ServingMode) (slots : Nat) (requested : Bool) :
    (start mode slots requested).Heeds :=
  heeds_of_going (by cases requested <;> simp [start, Flag.raise]) rfl rfl

/-- A loop that is woken from waiting has been requested to. -/
theorem Heeds.up_of_woken (hl : l.Heeds) (hgoing : l.hasReturned = false)
    (hseen : l.seen ≠ l.shutdown.raisings) : l.shutdown.up = true := by
  rw [hl.seen hgoing] at hseen
  exact hl.up_iff.mpr (Nat.pos_of_ne_zero hseen.symm)

theorem Heeds.step (hl : l.Heeds) (hlimiter : l.limiter.closed = false) (h : Step l a l') :
    l'.Heeds := by
  have hreturns {flag : Flag} (hup : flag.up = true) (error? : Option ServerError)
      (hpos : Position.returned none = .returned error?) : error? = none ∧ flag.up = true :=
    ⟨(Position.returned.inj hpos).symm, hup⟩
  -- it returns in three steps, each behind a request; a limiter that is closed would be a fourth
  cases h with
  | seesRequest hpos hup => exact ⟨hl.up_iff, nofun, hreturns hup⟩
  | findsLimiterClosed hpos hclosed =>
    rw [hlimiter] at hclosed
    cases hclosed
  | stopsAtSlot hpos hseen =>
    exact ⟨hl.up_iff, nofun, hreturns (hl.up_of_woken (by rw [hasReturned, hpos]) hseen)⟩
  | stopsAtConnection hpos hseen =>
    exact ⟨hl.up_iff, nofun, hreturns (hl.up_of_woken (by rw [hasReturned, hpos]) hseen)⟩
  | isRequested =>
    exact ⟨iff_of_true rfl (Nat.succ_pos _), hl.seen, fun e hpos => ⟨(hl.returned e hpos).1, rfl⟩⟩
  | runsAgain => exact heeds_of_going hl.up_iff rfl rfl
  | connects => exact ⟨hl.up_iff, hl.seen, hl.returned⟩
  | taskEnds => exact ⟨hl.up_iff, hl.seen, hl.returned⟩
  | _ => exact heeds_of_going hl.up_iff (hl.seen (by simp [hasReturned, *])) rfl

/-- Where a loop gets that is in its mode's place and heeds requests. -/
theorem Heeds.run (hl : l.Heeds) (hplaced : l.Placed) (h : l.run? actions = some l') : l'.Heeds := by
  refine (run?_preserves (P := fun m => m.Placed ∧ m.Heeds) ?_ h ⟨hplaced, hl⟩).2
  exact fun hm hstep => ⟨hm.1.step hstep, hm.2.step hm.1.limiter hstep⟩

/-- The flag is up exactly if it was, or if shutdown was requested since. -/
theorem up_run (h : l.run? actions = some l') :
    l'.shutdown.up = true ↔ l.shutdown.up = true ∨ .requestShutdown ∈ actions := by
  induction actions generalizing l with
  | nil =>
    obtain rfl := run?_nil.mp h
    simp
  | cons a actions ih =>
    obtain ⟨m, hm, hrest⟩ := run?_cons.mp h
    rw [ih hrest, List.mem_cons]
    cases hm <;> simp [Flag.raise]

/-! ## What is still to come behind a request -/

/-- How many connections a loop may accept before it looks for a request: the one that it waits for
or is about to. -/
def mayAccept (l : Loop) : Nat :=
  match l.position with
  | .awaitingSlot | .awaitingConnection _ => 1
  | _ => 0

theorem Step.up (h : Step l a l') (hup : l.shutdown.up = true) : l'.shutdown.up = true := by
  cases h with
  | isRequested => rfl
  | _ => exact hup

theorem Step.mayAccept_le (h : Step l a l') (hup : l.shutdown.up = true) :
    (if a = .accept then 1 else 0) + l'.mayAccept ≤ l.mayAccept := by
  cases h with
  | looksForSlot hpos hdown => cases hdown.symm.trans hup
  | looksForConnection hpos hdown => cases hdown.symm.trans hup
  | _ => simp [mayAccept, *]

/-- **Behind a request, a run accepts no more than the loop was about to.** -/
theorem accepts_le (hup : l.shutdown.up = true) (h : l.run? actions = some l') :
    actions.count .accept + l'.mayAccept ≤ l.mayAccept := by
  induction actions generalizing l with
  | nil =>
    obtain rfl := run?_nil.mp h
    simp
  | cons a actions ih =>
    obtain ⟨m, hm, hrest⟩ := run?_cons.mp h
    have hfirst := hm.mayAccept_le hup
    have hothers := ih (hm.up hup) hrest
    simp only [List.count_cons, beq_iff_eq]
    omega

/-- **A session that the loop serves goes on until it ends.** -/
theorem sessionEnds_of_serving {connection : ConnectionId} (hpos : l.position = .serving connection)
    (h : l.run? actions = some l') (hpos' : l'.position ≠ .serving connection) :
    ∃ ending, .sessionEnds connection ending ∈ actions := by
  induction actions generalizing l with
  | nil => exact absurd (run?_nil.mp h ▸ hpos) hpos'
  | cons a actions ih =>
    obtain ⟨m, hm, hrest⟩ := run?_cons.mp h
    have hstays (hm : m.position = .serving connection) :
        ∃ ending, .sessionEnds connection ending ∈ a :: actions := by
      obtain ⟨ending, hmem⟩ := ih hm hrest
      exact ⟨ending, List.mem_cons_of_mem _ hmem⟩
    cases hm with
    | @servedEnds other ending hserving =>
      obtain rfl : connection = other := Position.serving.inj (hpos.symm.trans hserving)
      exact ⟨ending, List.mem_cons_self⟩
    | connects => exact hstays hpos
    | taskEnds => exact hstays hpos
    | isRequested => exact hstays hpos
    | _ => simp_all

/-- A loop that has returned, or is about to look for the request, never waits again. -/
theorem idle_run (hup : l.shutdown.up = true) (hidle : l.position = .top ∨ l.hasReturned = true)
    (h : l.run? more = some l') : l'.position = .top ∨ l'.hasReturned = true := by
  refine (run?_preserves (P := fun m =>
    m.shutdown.up = true ∧ (m.position = .top ∨ m.hasReturned = true)) ?_ h ⟨hup, hidle⟩).2
  rintro l a l' ⟨hup, hidle⟩ hstep
  refine ⟨hstep.up hup, ?_⟩
  cases hstep with
  | looksForSlot hpos hdown => cases hdown.symm.trans hup
  | looksForConnection hpos hdown => cases hdown.symm.trans hup
  | connects => exact hidle
  | taskEnds => exact hidle
  | isRequested => exact hidle
  | _ => simp_all [hasReturned]

/-! ## One more request -/

/-- The loop, apart from how often shutdown was requested. -/
def apart (l : Loop) : Loop := { l with shutdown := {}, seen := 0 }

/-- **Two loops that were requested to shut down**, perhaps not equally often, and are otherwise the
same. -/
structure Alike (l m : Loop) : Prop where
  apart_eq : m.apart = l.apart
  up : l.shutdown.up = true ∧ m.shutdown.up = true
  heeds : l.Heeds ∧ m.Heeds
  placed : l.Placed ∧ m.Placed

theorem Alike.refl (hup : l.shutdown.up = true) (hl : l.Heeds) (hplaced : l.Placed) : Alike l l :=
  ⟨rfl, ⟨hup, hup⟩, ⟨hl, hl⟩, ⟨hplaced, hplaced⟩⟩

theorem Alike.symm (h : Alike l m) : Alike m l :=
  ⟨h.apart_eq.symm, h.up.symm, h.heeds.symm, h.placed.symm⟩

/-- One of them may be requested once more. -/
theorem Alike.requested (h : Alike l m) : Alike { l with shutdown := l.shutdown.raise } m where
  apart_eq := h.apart_eq
  up := ⟨rfl, h.up.2⟩
  heeds := ⟨h.heeds.1.step h.placed.1.limiter .isRequested, h.heeds.2⟩
  placed := ⟨h.placed.1.step .isRequested, h.placed.2⟩

/-- Behind a request, a loop that waits can be woken. -/
theorem Heeds.wakes (hl : l.Heeds) (hup : l.shutdown.up = true) (hgoing : l.hasReturned = false) :
    l.seen ≠ l.shutdown.raisings := by
  rw [hl.seen hgoing]
  exact Nat.ne_of_lt (hl.up_iff.mp hup)

/-- **What one of two such loops does, the other one does**, and they stay alike. -/
theorem Alike.step (h : Alike l m) (ha : a ≠ .requestShutdown) (hstep : Step l a l') :
    ∃ m', Step m a m' ∧ Alike l' m' := by
  obtain ⟨happart, hup, hheeds, hplaced⟩ := h
  obtain ⟨mode, position, limiter, connected, waiting, tasks, shutdown, seen⟩ := m
  simp only [apart, Loop.mk.injEq, and_true] at happart
  obtain ⟨rfl, rfl, rfl, rfl, rfl, rfl⟩ := happart
  suffices hdoes : ∃ m', Step _ a m' ∧ m'.apart = l'.apart by
    obtain ⟨m', hm, hsame⟩ := hdoes
    exact ⟨m', hm, hsame, ⟨hstep.up hup.1, hm.up hup.2⟩,
      ⟨hheeds.1.step hplaced.1.limiter hstep, hheeds.2.step hplaced.2.limiter hm⟩,
      ⟨hplaced.1.step hstep, hplaced.2.step hm⟩⟩
  have hwakes := hheeds.2.wakes hup.2
  -- they differ in the flag alone, so each step is the other's as it stands; where it looks at the
  -- flag, both loops are behind a request
  cases hstep with
  | seesRequest hpos => exact ⟨_, .seesRequest hpos hup.2, rfl⟩
  | looksForSlot hpos hdown => cases hdown.symm.trans hup.1
  | looksForConnection hpos hdown => cases hdown.symm.trans hup.1
  | findsLimiterClosed hpos hclosed => exact ⟨_, .findsLimiterClosed hpos hclosed, rfl⟩
  | takesSlot hpos hopen hfree => exact ⟨_, .takesSlot hpos hopen hfree, rfl⟩
  | connects => exact ⟨_, .connects, rfl⟩
  | begins hpos hwaiting => exact ⟨_, .begins hpos hwaiting, rfl⟩
  | serves hpos hwaiting => exact ⟨_, .serves hpos hwaiting, rfl⟩
  | failsToAccept hpos => exact ⟨_, .failsToAccept hpos, rfl⟩
  | servedEnds hpos => exact ⟨_, .servedEnds hpos, rfl⟩
  | taskEnds hpos htask => exact ⟨_, .taskEnds hpos htask, rfl⟩
  | isRequested => exact absurd rfl ha
  | stopsAtSlot hpos => exact ⟨_, .stopsAtSlot hpos (hwakes (by simp [hasReturned, hpos])), rfl⟩
  | stopsAtConnection hpos =>
    exact ⟨_, .stopsAtConnection hpos (hwakes (by simp [hasReturned, hpos])), rfl⟩
  | runsAgain hpos => exact ⟨_, .runsAgain hpos, rfl⟩

/-- **Behind a request, further ones change nothing**, wherever they come in a run. -/
theorem Alike.run (h : Alike l m) (more : List Action) :
    (l.run? more).map apart
      = (m.run? (more.filter (· ≠ .requestShutdown))).map apart := by
  -- a further request is a step of `l` that `m` leaves out
  induction more generalizing l m with
  | nil => exact congrArg some h.apart_eq.symm
  | cons a more ih =>
    by_cases ha : a = .requestShutdown
    · subst ha
      rw [List.filter_cons_of_neg (by simp), run?_cons_eq, Step.isRequested.step?]
      exact ih h.requested
    · rw [List.filter_cons_of_pos (by simpa using ha), run?_cons_eq, run?_cons_eq]
      cases hl : l.step? a with
      | some l' =>
        obtain ⟨m', hm, hsame⟩ := h.step ha (step?_eq_some_iff.mp hl)
        rw [hm.step?]
        exact ih hsame
      | none =>
        cases hm : m.step? a with
        | none => rfl
        | some m' =>
          obtain ⟨l', hl', -⟩ := h.symm.step ha (step?_eq_some_iff.mp hm)
          cases hl.symm.trans hl'.step?

/-! ## Shutdown -/

/-- **A loop shuts down**, as it does behind a request. -/
structure ShutsDown (l : Loop) : Prop where
  /-- Wherever the loop looks for the request, or waits, it can return. -/
  leaves_top : l.position = .top → ∃ l', l.step? .look = some l' ∧ l'.position = .returned none
  leaves_slot : l.position = .awaitingSlot →
    ∃ l', l.step? .stop = some l' ∧ l'.position = .returned none
  leaves_connection : ∀ slot, l.position = .awaitingConnection slot →
    ∃ l', l.step? .stop = some l' ∧ l'.position = .returned none
  /-- One more connection may be accepted. -/
  accepts_le_one : ∀ more l', l.run? more = some l' → more.count .accept ≤ 1
  /-- It is the one that the loop waits for: there is none where the loop is about to look, serves
  a session, or has returned. -/
  accepts_none : (l.position = .top ∨ (∃ connection, l.position = .serving connection)
    ∨ l.hasReturned = true) → ∀ more l', l.run? more = some l' → .accept ∉ more
  /-- Further requests change nothing. -/
  again : ∀ more, (l.run? more).map apart
    = (l.run? (more.filter (· ≠ .requestShutdown))).map apart
  /-- A later run returns as well, and leaves everything as it was. -/
  later : l.hasReturned = true → ∃ l', l.run? [.runAgain, .look] = some l'
    ∧ l'.position = .returned none
    ∧ { l' with position := l.position }.apart = l.apart
  /-- It does not wait for anything. -/
  idle : l.hasReturned = true → ∀ more l', l.run? more = some l' →
    l'.position = .top ∨ l'.hasReturned = true

/-- Whoever has returned may run again, and then returns. -/
theorem runs_again (hup : l.shutdown.up = true) (h : l.hasReturned = true) :
    ∃ l', l.run? [.runAgain, .look] = some l' ∧ l'.position = .returned none
      ∧ { l' with position := l.position }.apart = l.apart := by
  unfold hasReturned at h
  split at h
  · next error? hpos =>
    have hrun : l.run? [.runAgain, .look] = some { l with position := .returned none, seen := 0 } :=
      run?_cons.mpr ⟨_, .runsAgain hpos, run?_cons.mpr ⟨_, .seesRequest rfl hup, run?_nil.mpr rfl⟩⟩
    exact ⟨_, hrun, rfl, rfl⟩
  · cases h

theorem Heeds.shutsDown (hl : l.Heeds) (hplaced : l.Placed) (hup : l.shutdown.up = true) :
    l.ShutsDown where
  leaves_top hpos := ⟨_, (Step.seesRequest hpos hup).step?, rfl⟩
  leaves_slot hpos :=
    ⟨_, (Step.stopsAtSlot hpos (hl.wakes hup (by rw [hasReturned, hpos]))).step?, rfl⟩
  leaves_connection slot hpos :=
    ⟨_, (Step.stopsAtConnection hpos (hl.wakes hup (by rw [hasReturned, hpos]))).step?, rfl⟩
  accepts_le_one more l' h := by
    have hle := accepts_le hup h
    have hone : l.mayAccept ≤ 1 := by
      unfold mayAccept
      split <;> omega
    omega
  accepts_none hpos more l' h := by
    have hle := accepts_le hup h
    have hnone : l.mayAccept = 0 := by
      unfold mayAccept
      split
      · next hslot => simp [hslot, hasReturned] at hpos
      · next hconnection => simp [hconnection, hasReturned] at hpos
      · rfl
    exact List.count_eq_zero.mp (by omega)
  again more := (Alike.refl hup hl hplaced).run more
  later := runs_again hup
  idle hreturned more l' := idle_run hup (.inr hreturned)

/-- **The loop returns when shutdown is requested, and for no other reason**: it has returned only
behind a request, and without an error; a session that it serves then goes on until it ends; and
behind a request it shuts down, wherever it is. -/
theorem returns_for_shutdown {mode : ServingMode} {slots : Nat} {requested : Bool}
    {actions : List Action} {l : Loop}
    (h : (start mode slots requested).run? actions = some l) :
    (∀ error?, l.position = .returned error? →
      error? = none ∧ (requested = true ∨ .requestShutdown ∈ actions))
      ∧ (∀ connection more l', l.position = .serving connection → l.run? more = some l' →
        l'.hasReturned = true → ∃ ending, .sessionEnds connection ending ∈ more)
      ∧ ((requested = true ∨ .requestShutdown ∈ actions) → l.ShutsDown) := by
  have hplaced := (placed_start mode slots requested).run h
  have hheeds := (heeds_start mode slots requested).run (placed_start mode slots requested) h
  have hup : l.shutdown.up = true ↔ requested = true ∨ .requestShutdown ∈ actions := by
    rw [up_run h]
    cases requested <;> simp [start, Flag.raise]
  refine ⟨fun error? hpos => ?_, fun connection more l' hpos hmore hreturned => ?_, fun hrequest => ?_⟩
  · obtain ⟨hnone, hraised⟩ := hheeds.returned error? hpos
    exact ⟨hnone, hup.mp hraised⟩
  · refine sessionEnds_of_serving hpos hmore fun hstill => ?_
    simp [hasReturned, hstill] at hreturned
  · exact hheeds.shutsDown hplaced (hup.mpr hrequest)

/-- With its only slot taken and nobody connecting, the loop can still return. -/
theorem returns_for_shutdown_at_slot :
    let actions : List Action :=
      [.look, .takeSlot, .connect, .accept, .look, .requestShutdown, .requestShutdown]
    let l : Loop :=
      { mode := .concurrent, position := .awaitingSlot, limiter := { free := 0 }, connected := 1
        tasks := [0], shutdown := { up := true, raisings := 2 } }
    (start .concurrent 1 false).run? actions = some l ∧ l.ShutsDown := by
  intro actions l
  have hrun : (start .concurrent 1 false).run? actions = some l := by decide
  exact ⟨hrun, (returns_for_shutdown hrun).2.2 (.inr (by decide))⟩

end DeflateEcho.Listener.Loop
