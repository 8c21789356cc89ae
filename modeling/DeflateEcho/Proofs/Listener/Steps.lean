import DeflateEcho.Listener.AcceptLoop

/-!
# Proofs/Listener/Steps — everything that can happen to the accept loop

`Step` lists what can happen to a loop, each with what it needs; `step?_eq_some_iff` says that this
is what `Loop.step?` does, so that no other proof has to open it.  A run is one such step after the
other (`run?_cons`), and what no step spoils holds wherever a run gets (`run?_preserves`): first of
all, that the loop is where its mode lets it be (`Placed`).
-/

namespace DeflateEcho.Listener

open Echo (Ending)

/-- The positions that a loop can be in, by its mode. -/
def Position.Fits (mode : ServingMode) : Position → Prop
  | awaitingSlot => mode = .concurrent
  | awaitingConnection slot => slot = true ↔ mode = .concurrent
  | serving _ => mode = .serial
  | _ => True

namespace Loop

/-! ## Steps -/

/-- **What can happen to a loop**, and how it then stands. -/
inductive Step (l : Loop) : Action → Loop → Prop
  | seesRequest (hpos : l.position = .top) (hup : l.shutdown.up = true) :
    Step l .look { l with position := .returned none }
  | looksForSlot (hpos : l.position = .top) (hup : l.shutdown.up = false)
    (hmode : l.mode = .concurrent) : Step l .look { l with position := .awaitingSlot }
  | looksForConnection (hpos : l.position = .top) (hup : l.shutdown.up = false)
    (hmode : l.mode = .serial) : Step l .look { l with position := .awaitingConnection false }
  | findsLimiterClosed (hpos : l.position = .awaitingSlot) (hclosed : l.limiter.closed = true) :
    Step l .takeSlot { l with position := .returned (some .limiterClosed) }
  | takesSlot (hpos : l.position = .awaitingSlot) (hopen : l.limiter.closed = false)
    (hfree : 0 < l.limiter.free) :
    Step l .takeSlot { l with position := .awaitingConnection true, limiter := l.limiter.take }
  | connects :
    Step l .connect { l with connected := l.connected + 1, waiting := l.waiting ++ [l.connected] }
  | begins {connection : ConnectionId} {waiting : List ConnectionId}
    (hpos : l.position = .awaitingConnection true) (hwaiting : l.waiting = connection :: waiting) :
    Step l .accept { l with position := .top, waiting, tasks := connection :: l.tasks }
  | serves {connection : ConnectionId} {waiting : List ConnectionId}
    (hpos : l.position = .awaitingConnection false) (hwaiting : l.waiting = connection :: waiting) :
    Step l .accept { l with position := .serving connection, waiting }
  | failsToAccept {slot : Bool} (hpos : l.position = .awaitingConnection slot) :
    Step l .acceptFails { l with position := .top, limiter := l.limiter.release slot }
  | servedEnds {connection : ConnectionId} {ending : Ending}
    (hpos : l.position = .serving connection) :
    Step l (.sessionEnds connection ending) { l with position := .top }
  | taskEnds {connection : ConnectionId} {ending : Ending} (hpos : l.position ≠ .serving connection)
    (htask : connection ∈ l.tasks) :
    Step l (.sessionEnds connection ending)
      { l with tasks := l.tasks.erase connection, limiter := l.limiter.release true }
  | isRequested : Step l .requestShutdown { l with shutdown := l.shutdown.raise }
  | stopsAtSlot (hpos : l.position = .awaitingSlot) (hseen : l.seen ≠ l.shutdown.raisings) :
    Step l .stop { l with position := .returned none, seen := l.shutdown.raisings }
  | stopsAtConnection {slot : Bool} (hpos : l.position = .awaitingConnection slot)
    (hseen : l.seen ≠ l.shutdown.raisings) :
    Step l .stop
      { l with
        position := .returned none
        limiter := l.limiter.release slot
        seen := l.shutdown.raisings }
  | runsAgain {error? : Option ServerError} (hpos : l.position = .returned error?) :
    Step l .runAgain { l with position := .top, seen := 0 }

variable {l l' : Loop} {a : Action} {actions : List Action}

theorem step_of_step? (h : l.step? a = some l') : l.Step a l' := by
  cases a with
  | look =>
    rw [step?] at h
    split at h
    · next hpos =>
      split at h
      · next hup => exact Option.some.inj h ▸ .seesRequest hpos hup
      · next hup =>
        rw [Bool.not_eq_true] at hup
        split at h
        · next hmode => exact Option.some.inj h ▸ .looksForSlot hpos hup hmode
        · next hmode => exact Option.some.inj h ▸ .looksForConnection hpos hup hmode
    · cases h
  | takeSlot =>
    rw [step?] at h
    split at h
    · next hpos =>
      split at h
      · next hclosed => exact Option.some.inj h ▸ .findsLimiterClosed hpos hclosed
      · next hopen =>
        split at h
        · next hfree =>
          exact Option.some.inj h ▸ .takesSlot hpos (Bool.not_eq_true _ ▸ hopen) hfree
        · cases h
    · cases h
  | connect => exact Option.some.inj h ▸ .connects
  | accept =>
    rw [step?] at h
    split at h
    · next hpos hwaiting => exact Option.some.inj h ▸ .begins hpos hwaiting
    · next hpos hwaiting => exact Option.some.inj h ▸ .serves hpos hwaiting
    · cases h
  | acceptFails =>
    rw [step?] at h
    split at h
    · next hpos => exact Option.some.inj h ▸ .failsToAccept hpos
    · cases h
  | sessionEnds connection ending =>
    rw [step?] at h
    split at h
    · next hpos => exact Option.some.inj h ▸ .servedEnds hpos
    · next hpos =>
      split at h
      · next htask => exact Option.some.inj h ▸ .taskEnds hpos htask
      · cases h
  | requestShutdown => exact Option.some.inj h ▸ .isRequested
  | stop =>
    rw [step?] at h
    split at h
    · cases h
    · next hseen =>
      split at h
      · next hpos => exact Option.some.inj h ▸ .stopsAtSlot hpos hseen
      · next hpos => exact Option.some.inj h ▸ .stopsAtConnection hpos hseen
      · cases h
  | runAgain =>
    rw [step?] at h
    split at h
    · next hpos => exact Option.some.inj h ▸ .runsAgain hpos
    · cases h

theorem Step.step? (h : l.Step a l') : l.step? a = some l' := by
  cases h <;> simp [Loop.step?, *]

/-- **These are the steps of the loop.** -/
theorem step?_eq_some_iff : l.step? a = some l' ↔ l.Step a l' :=
  ⟨step_of_step?, Step.step?⟩

/-! ## Runs -/

theorem run?_nil : l.run? [] = some l' ↔ l = l' := by
  rw [run?, List.foldlM_nil]
  exact Option.some_inj

theorem run?_cons_eq : l.run? (a :: actions) = (l.step? a).bind (run? · actions) :=
  List.foldlM_cons

/-- A run is a step and the run from there. -/
theorem run?_cons :
    l.run? (a :: actions) = some l' ↔ ∃ m, l.Step a m ∧ m.run? actions = some l' := by
  rw [run?_cons_eq]
  simp only [← step?_eq_some_iff]
  exact Option.bind_eq_some_iff

/-- **What no step spoils holds wherever a run gets.** -/
theorem run?_preserves {P : Loop → Prop} (hstep : ∀ {l a l'}, P l → Step l a l' → P l')
    (h : l.run? actions = some l') (hl : P l) : P l' := by
  induction actions generalizing l with
  | nil => exact run?_nil.mp h ▸ hl
  | cons a actions ih =>
    obtain ⟨m, hm, hrest⟩ := run?_cons.mp h
    exact ih hrest (hstep hl hm)

/-! ## Where a loop can be -/

theorem Step.mode (h : Step l a l') : l'.mode = l.mode := by
  cases h <;> rfl

/-- **The loop is where its mode lets it be**: in a serial one nothing runs beside it. -/
structure Placed (l : Loop) : Prop where
  position : l.position.Fits l.mode
  tasks : l.mode = .serial → l.tasks = []
  /-- Nobody closes the limiter. -/
  limiter : l.limiter.closed = false

theorem placed_start (mode : ServingMode) (slots : Nat) (requested : Bool) :
    (start mode slots requested).Placed where
  position := trivial
  tasks _ := rfl
  limiter := rfl

theorem Placed.step (hl : l.Placed) (h : Step l a l') : l'.Placed := by
  obtain ⟨hposition, htasks, hlimiter⟩ := hl
  cases h with
  | looksForSlot hpos hup hmode => exact ⟨hmode, htasks, hlimiter⟩
  | looksForConnection hpos hup hmode => exact ⟨by simp [Position.Fits, hmode], htasks, hlimiter⟩
  | takesSlot hpos =>
    rw [hpos] at hposition
    exact ⟨iff_of_true rfl hposition, htasks, hlimiter⟩
  | begins hpos =>
    rw [hpos] at hposition
    refine ⟨trivial, fun hserial => ?_, hlimiter⟩
    rw [hposition.mp rfl] at hserial
    cases hserial
  | serves hpos =>
    rw [hpos] at hposition
    refine ⟨?_, htasks, hlimiter⟩
    cases hmode : l.mode with
    | serial => rfl
    | concurrent => cases hposition.mpr hmode
  | taskEnds => exact ⟨hposition, fun hserial => by simp [htasks hserial], hlimiter⟩
  | connects => exact ⟨hposition, htasks, hlimiter⟩
  | isRequested => exact ⟨hposition, htasks, hlimiter⟩
  | _ => exact ⟨trivial, htasks, hlimiter⟩

theorem Placed.run (hl : l.Placed) (h : l.run? actions = some l') : l'.Placed :=
  run?_preserves Placed.step h hl

theorem mode_run (h : l.run? actions = some l') : l'.mode = l.mode :=
  run?_preserves (P := fun m => m.mode = l.mode) (fun hm hstep => hstep.mode.trans hm) h rfl

theorem Placed.slot_of_concurrent (hl : l.Placed) (hmode : l.mode = .concurrent) {slot : Bool}
    (hpos : l.position = .awaitingConnection slot) : slot = true := by
  have hfits := hl.position
  rw [hpos] at hfits
  exact hfits.mpr hmode

theorem Placed.not_serving (hl : l.Placed) (hmode : l.mode = .concurrent)
    (connection : ConnectionId) : l.position ≠ .serving connection := by
  intro hpos
  have hfits := hl.position
  rw [hpos, hmode] at hfits
  cases hfits

/-- Side by side, all sessions are tasks. -/
theorem Placed.sessions_of_concurrent (hl : l.Placed) (hmode : l.mode = .concurrent) :
    l.sessions = l.tasks := by
  unfold sessions
  split
  · next connection hpos => exact absurd hpos (hl.not_serving hmode connection)
  · rfl

/-- One by one, the only session is the one that the loop serves. -/
theorem Placed.sessions_of_serial (hl : l.Placed) (hmode : l.mode = .serial) :
    l.sessions = [] ∨ ∃ connection, l.position = .serving connection ∧ l.sessions = [connection] := by
  unfold sessions
  rw [hl.tasks hmode]
  split
  · next connection hpos => exact .inr ⟨connection, hpos, rfl⟩
  · exact .inl rfl

end Loop

end DeflateEcho.Listener
