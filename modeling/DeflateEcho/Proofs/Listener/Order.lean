import DeflateEcho.Proofs.Listener.Steps
import Mathlib.Data.List.Perm.Basic

/-!
# Proofs/Listener/Order — connections are accepted in the order of their numbers, and served once

The connections that wait are those from the first that was not accepted (`Numbered`).  So those that
a run accepts come in the order of their numbers (`Numbered.acceptedIn_eq`), each of them once; and
the session of each of them has ended or still runs, in a run from its beginning (`sessions_perm`).
-/

namespace DeflateEcho.Listener

/-- The connection whose session an action ends. -/
def Action.ends? : Action → Option ConnectionId
  | sessionEnds connection _ => some connection
  | _ => none

namespace Loop

variable {l l' : Loop} {a : Action} {actions : List Action}

/-- The connection that an action accepts. -/
def accepts? (l : Loop) : Action → Option ConnectionId
  | .accept => l.waiting.head?
  | _ => none

/-- How many connections were accepted. -/
def accepted (l : Loop) : Nat := l.connected - l.waiting.length

/-- **Connections are accepted in the order of their numbers**: those that wait begin with the first
that was not accepted, and none is served twice. -/
structure Numbered (l : Loop) : Prop where
  length_le : l.waiting.length ≤ l.connected
  waiting : l.waiting = List.range' l.accepted l.waiting.length
  lt_accepted : ∀ connection ∈ l.sessions, connection < l.accepted
  nodup : l.sessions.Nodup

/-- Who connects is not accepted yet. -/
theorem accepted_connect (l : Loop) :
    accepted { l with connected := l.connected + 1, waiting := l.waiting ++ [l.connected] }
      = l.accepted := by
  simp [accepted]

theorem numbered_start (mode : ServingMode) (slots : Nat) (requested : Bool) :
    (start mode slots requested).Numbered where
  length_le := Nat.zero_le _
  waiting := rfl
  lt_accepted _ h := absurd h List.not_mem_nil
  nodup := List.nodup_nil

/-- The first connection that waits is the first that was not accepted. -/
theorem Numbered.head {connection : ConnectionId} {waiting : List ConnectionId} (hl : l.Numbered)
    (h : l.waiting = connection :: waiting) :
    connection = l.accepted ∧ waiting = List.range' (l.accepted + 1) waiting.length := by
  have hwaiting := hl.waiting
  rwa [h, List.length_cons, List.range'_succ, List.cons.injEq] at hwaiting

/-- Once it is gone from those that wait, one more was accepted. -/
theorem Numbered.accepted_eq_succ {connection : ConnectionId} {waiting : List ConnectionId}
    (hl : l.Numbered) (h : l.waiting = connection :: waiting) (hwaiting : l'.waiting = waiting)
    (hconnected : l'.connected = l.connected) : l'.accepted = l.accepted + 1 := by
  have hle := hl.length_le
  rw [h, List.length_cons] at hle
  rw [accepted, accepted, hwaiting, hconnected, h, List.length_cons]
  omega

theorem Numbered.head_eq_range' {connection : ConnectionId} {waiting : List ConnectionId}
    (hl : l.Numbered) (h : l.waiting = connection :: waiting) (hwaiting : l'.waiting = waiting)
    (hconnected : l'.connected = l.connected) :
    l.accepted ≤ l'.accepted
      ∧ l.waiting.head?.toList = List.range' l.accepted (l'.accepted - l.accepted) := by
  rw [hl.accepted_eq_succ h hwaiting hconnected, h, (hl.head h).1]
  simp

/-- The connection that was accepted last is a new session. -/
theorem Numbered.accept {connection : ConnectionId} {waiting : List ConnectionId}
    (hl : l.Numbered) (h : l.waiting = connection :: waiting) (hwaiting : l'.waiting = waiting)
    (hconnected : l'.connected = l.connected) (hsessions : l'.sessions = connection :: l.sessions) :
    l'.Numbered := by
  obtain ⟨rfl, hrange⟩ := hl.head h
  have haccepted := hl.accepted_eq_succ h hwaiting hconnected
  have hle := hl.length_le
  rw [h, List.length_cons] at hle
  refine ⟨?_, by rw [haccepted, hwaiting, ← hrange], ?_, ?_⟩
  · rw [hwaiting, hconnected]
    omega
  · rw [hsessions, haccepted, List.forall_mem_cons]
    exact ⟨Nat.lt_succ_self _, fun c hc => Nat.lt_succ_of_lt (hl.lt_accepted c hc)⟩
  · rw [hsessions, List.nodup_cons]
    exact ⟨fun hmem => Nat.lt_irrefl _ (hl.lt_accepted _ hmem), hl.nodup⟩

/-- Sessions that end leave the order of connections as it is. -/
theorem Numbered.sublist {l' : Loop} (hl : l.Numbered) (hwaiting : l'.waiting = l.waiting)
    (hconnected : l'.connected = l.connected) (hsessions : l'.sessions.Sublist l.sessions) :
    l'.Numbered := by
  have haccepted : l'.accepted = l.accepted := by rw [accepted, accepted, hwaiting, hconnected]
  refine ⟨?_, ?_, fun c hc => ?_, hl.nodup.sublist hsessions⟩
  · rw [hwaiting, hconnected]
    exact hl.length_le
  · rw [hwaiting, haccepted]
    exact hl.waiting
  · rw [haccepted]
    exact hl.lt_accepted c (hsessions.subset hc)

/-- While the loop waits for a connection, all sessions are tasks. -/
theorem sessions_of_awaitingConnection {slot : Bool}
    (hpos : l.position = .awaitingConnection slot) : l.sessions = l.tasks := by
  rw [sessions, hpos]

/-- A session that runs can end, in whatever way. -/
theorem exists_sessionEnds {connection : ConnectionId} (h : connection ∈ l.sessions)
    (ending : Echo.Ending) : ∃ l', Step l (.sessionEnds connection ending) l' := by
  by_cases hpos : l.position = .serving connection
  · exact ⟨_, .servedEnds hpos⟩
  · refine ⟨_, .taskEnds hpos ?_⟩
    unfold sessions at h
    split at h
    · next other hother =>
      refine (List.mem_cons.mp h).resolve_left ?_
      rintro rfl
      exact hpos hother
    · exact h

/-- **A session that runs was accepted before, and one that ends ran.** -/
theorem Step.sessions (h : Step l a l') :
    (l.sessions ++ (l.accepts? a).toList).Perm (a.ends?.toList ++ l'.sessions) := by
  cases h with
  | taskEnds hpos htask =>
    have herase := List.perm_cons_erase htask
    simp only [accepts?, Action.ends?, Loop.sessions, Option.toList, List.append_nil]
    split
    · exact (herase.cons _).trans (List.Perm.swap _ _ _)
    · exact herase
  | _ => simp [accepts?, Action.ends?, Loop.sessions, *]

theorem Numbered.step (hl : l.Numbered) (h : Step l a l') : l'.Numbered := by
  cases h with
  | connects =>
    have haccepted := l.accepted_connect
    have hlast : l.accepted + l.waiting.length = l.connected := Nat.sub_add_cancel hl.length_le
    refine ⟨?_, ?_, by rw [haccepted]; exact hl.lt_accepted, hl.nodup⟩
    · simpa using hl.length_le
    · rw [haccepted, List.length_append, List.length_singleton, List.range'_concat, Nat.one_mul,
        hlast, ← hl.waiting]
  | begins hpos hwaiting =>
    exact hl.accept hwaiting rfl rfl (by rw [sessions_of_awaitingConnection hpos]; rfl)
  | serves hpos hwaiting =>
    exact hl.accept hwaiting rfl rfl (by rw [sessions_of_awaitingConnection hpos]; rfl)
  | servedEnds hpos =>
    exact hl.sublist rfl rfl (by simp [Loop.sessions, hpos])
  | @taskEnds connection _ hpos htask =>
    have herase : (l.tasks.erase connection).Sublist l.tasks := List.erase_sublist
    refine hl.sublist rfl rfl ?_
    simp only [Loop.sessions]
    split
    · exact herase.cons_cons _
    · exact herase
  | _ => exact hl.sublist rfl rfl (by simp [Loop.sessions, *])

/-- An action accepts the first connection that was not accepted, if it accepts one. -/
theorem Numbered.accepts (hl : l.Numbered) (h : Step l a l') :
    l.accepted ≤ l'.accepted
      ∧ (l.accepts? a).toList = List.range' l.accepted (l'.accepted - l.accepted) := by
  cases h with
  | connects => simp [accepted_connect, accepts?]
  | begins hpos hwaiting => exact hl.head_eq_range' hwaiting rfl rfl
  | serves hpos hwaiting => exact hl.head_eq_range' hwaiting rfl rfl
  | _ => simp [accepts?, accepted]

/-! ## Runs -/

/-- The actions of a run, each with the loop that it found. -/
def visits (l : Loop) : List Action → List (Loop × Action)
  | [] => []
  | a :: actions =>
    (l, a) :: match l.step? a with
      | some l' => l'.visits actions
      | none => []

/-- The connections that a run accepts. -/
def acceptedIn (l : Loop) (actions : List Action) : List ConnectionId :=
  (l.visits actions).filterMap fun v => v.1.accepts? v.2

/-- The connections whose sessions end in a run. -/
def endedIn (actions : List Action) : List ConnectionId := actions.filterMap Action.ends?

theorem visits_cons (h : Step l a l') : l.visits (a :: actions) = (l, a) :: l'.visits actions := by
  rw [visits, h.step?]

theorem acceptedIn_cons (h : Step l a l') :
    l.acceptedIn (a :: actions) = (l.accepts? a).toList ++ l'.acceptedIn actions := by
  rw [acceptedIn, visits_cons h, List.filterMap_cons]
  cases l.accepts? a <;> rfl

theorem endedIn_cons : endedIn (a :: actions) = a.ends?.toList ++ endedIn actions := by
  rw [endedIn, List.filterMap_cons]
  cases a.ends? <;> rfl

theorem Numbered.run (hl : l.Numbered) (h : l.run? actions = some l') : l'.Numbered :=
  run?_preserves Numbered.step h hl

/-- **A run accepts connections in the order of their numbers**, from the first that was not
accepted before. -/
theorem Numbered.acceptedIn_eq (hl : l.Numbered) (h : l.run? actions = some l') :
    l.accepted ≤ l'.accepted
      ∧ l.acceptedIn actions = List.range' l.accepted (l'.accepted - l.accepted) := by
  induction actions generalizing l with
  | nil =>
    obtain rfl := run?_nil.mp h
    simp [acceptedIn, visits]
  | cons a actions ih =>
    obtain ⟨m, hm, hrest⟩ := run?_cons.mp h
    obtain ⟨hle, hfirst⟩ := hl.accepts hm
    obtain ⟨hle', hothers⟩ := ih (hl.step hm) hrest
    have hsplit : m.accepted = l.accepted + (m.accepted - l.accepted) := by omega
    have hall : m.accepted - l.accepted + (l'.accepted - m.accepted)
        = l'.accepted - l.accepted := by omega
    refine ⟨Nat.le_trans hle hle', ?_⟩
    rw [acceptedIn_cons hm, hfirst, hothers, ← hall, ← List.range'_append_1, ← hsplit]

theorem Numbered.nodup_acceptedIn (hl : l.Numbered) (h : l.run? actions = some l') :
    (l.acceptedIn actions).Nodup := by
  rw [(hl.acceptedIn_eq h).2]
  exact List.nodup_range'

/-- In a run from the beginning, those are accepted whose number is small enough. -/
theorem mem_acceptedIn_iff {mode : ServingMode} {slots : Nat} {requested : Bool}
    (h : (start mode slots requested).run? actions = some l) (connection : ConnectionId) :
    connection ∈ (start mode slots requested).acceptedIn actions ↔ connection < l.accepted := by
  have hzero : (start mode slots requested).accepted = 0 := rfl
  rw [((numbered_start mode slots requested).acceptedIn_eq h).2, hzero, Nat.sub_zero,
    ← List.range_eq_range', List.mem_range]

/-- **Of the sessions that ran and the connections that were accepted, each has ended or runs.** -/
theorem sessions_perm (h : l.run? actions = some l') :
    (l.sessions ++ l.acceptedIn actions).Perm (endedIn actions ++ l'.sessions) := by
  induction actions generalizing l with
  | nil =>
    obtain rfl := run?_nil.mp h
    simp [acceptedIn, visits, endedIn]
  | cons a actions ih =>
    obtain ⟨m, hm, hrest⟩ := run?_cons.mp h
    rw [acceptedIn_cons hm, endedIn_cons, List.append_assoc, ← List.append_assoc]
    refine (hm.sessions.append_right _).trans ?_
    rw [List.append_assoc]
    exact (ih hrest).append_left _

end Loop

end DeflateEcho.Listener
