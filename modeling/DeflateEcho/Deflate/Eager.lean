import DeflateEcho.Deflate.Collecting

/-!
# Deflate/Eager — engines that work everything out at once

An `Eager` engine works out all that comes of its input when the input is offered, and gives it out
as there is room.  Main statements: collecting from it ends with exactly what was worked out,
whatever the capacity of the buffer and however it grows (`deflateAll_eq`, `inflateAll_eq`).
-/

namespace DeflateEcho.Deflate

/-- What an eager engine runs: a function that works on all of an input at once. -/
structure Eager (σ : Type) where
  work : σ → Bytes → σ × Bytes
  /-- How many bytes it has taken in all. -/
  total : σ → Nat
  status : σ → Status
  total_le : ∀ state input, total state ≤ total (work state input).1
  total_le_add : ∀ state input, total (work state input).1 ≤ total state + input.length
  /-- It takes all of an input, unless it stops. -/
  total_eq : ∀ state input, status (work state input).1 = .going →
    total (work state input).1 = total state + input.length
  /-- What has stopped does nothing any more. -/
  work_of_stopped : ∀ state input, status state ≠ .going → work state input = (state, [])

namespace Eager

/-- The state of an eager engine: that of what it runs, what is still to be given out of what that
gave, and whether it has run. -/
structure Holding (σ : Type) where
  state : σ
  pending : Bytes := []
  hasRun : Bool := false

variable {σ : Type} (eager : Eager σ)

/-- Before the first call. -/
def fresh (state : σ) : Holding σ := { state }

/-- Runs on what is offered, unless that is nothing and it has run before. -/
def ready (s : Holding σ) (offered : Bytes) : Holding σ :=
  if s.hasRun && offered.isEmpty then s
  else
    let worked := eager.work s.state offered
    { state := worked.1, pending := s.pending ++ worked.2, hasRun := true }

/-- Gives out as much as there is room for.  That the stream has ended shows when everything has
been given out, that it has failed at once. -/
def drain (s : Holding σ) (room : Nat) : Call (Holding σ) where
  state := { s with pending := s.pending.drop room }
  emitted := s.pending.take room
  status := if eager.status s.state = .ended ∧ room < s.pending.length then .going
    else eager.status s.state

/-- The engine that runs a function and gives out what it gave. -/
abbrev engine : Engine where
  State := Holding σ
  totalIn := fun s => eager.total s.state
  call := fun s offered room => eager.drain (eager.ready s offered) room

variable {eager}

/-! ## One call -/

theorem ready_hasRun (s : Holding σ) (offered : Bytes) : (eager.ready s offered).hasRun = true := by
  unfold ready
  split
  · next h => exact (Bool.and_eq_true_iff.mp h).1
  · rfl

/-- It has run, and there is nothing left on which it would do anything. -/
def Settled (eager : Eager σ) (s : Holding σ) (offered : Bytes) : Prop :=
  s.hasRun = true ∧ (offered = [] ∨ eager.status s.state ≠ .going)

theorem ready_of_settled {s : Holding σ} {offered : Bytes} (h : eager.Settled s offered) :
    eager.ready s offered = s := by
  obtain ⟨hrun, rfl | hstopped⟩ := h
  · simp [ready, hrun]
  · cases s
    simp_all [ready, eager.work_of_stopped _ offered hstopped]

theorem totalIn_ready_eq {s : Holding σ} {offered : Bytes}
    (hgoing : eager.status (eager.ready s offered).state = .going) :
    eager.total (eager.ready s offered).state = eager.total s.state + offered.length := by
  unfold ready at *
  split
  · next h => simp_all
  · next h => simpa [h] using eager.total_eq s.state offered (by simpa [h] using hgoing)

theorem leaves_eq_nil {s : Holding σ} {offered : Bytes} (room : Nat)
    (hgoing : eager.status (eager.ready s offered).state = .going) :
    eager.engine.leaves s offered room = [] := by
  have htotal := totalIn_ready_eq hgoing
  simp only [Engine.leaves, Engine.takes, engine, drain, List.drop_eq_nil_iff]
  omega

/-- Behind a call it is settled with what that left. -/
theorem settled_call (s : Holding σ) (offered : Bytes) (room : Nat) :
    eager.Settled (eager.engine.call s offered room).state
      (eager.engine.leaves s offered room) := by
  refine ⟨ready_hasRun s offered, ?_⟩
  by_cases hgoing : eager.status (eager.ready s offered).state = .going
  · exact .inl (leaves_eq_nil room hgoing)
  · exact .inr hgoing

theorem total_ready_bounds (s : Holding σ) (offered : Bytes) :
    eager.total s.state ≤ eager.total (eager.ready s offered).state
      ∧ eager.total (eager.ready s offered).state ≤ eager.total s.state + offered.length := by
  unfold ready
  split
  · exact ⟨Nat.le_refl _, Nat.le_add_right _ _⟩
  · exact ⟨eager.total_le s.state offered, eager.total_le_add s.state offered⟩

theorem orderly (eager : Eager σ) : eager.engine.Orderly where
  totalIn_le s offered _ := (total_ready_bounds s offered).1
  takes_le s offered _ := Nat.sub_le_iff_le_add'.mpr (total_ready_bounds s offered).2
  emitted_le _ _ _ := List.length_take_le _ _

/-! ## Several calls -/

/-- **Calls give out what was ready for the first of them**, and nothing else happens in them. -/
theorem calls_eq {allowed : eager.engine.State → Bytes → Prop} {s : eager.engine.State}
    {offered taken emitted : Bytes} {final : Call eager.engine.State}
    (h : eager.engine.Calls allowed s offered taken emitted final) :
    (eager.ready s offered).pending = emitted ++ final.state.pending
      ∧ final.state.state = (eager.ready s offered).state := by
  induction h with
  | last => simp [engine, drain]
  | @next s offered room taken emitted final _ _ _ ih =>
    rw [ready_of_settled (settled_call s offered room)] at ih
    obtain ⟨hpending, hstate⟩ := ih
    refine ⟨?_, hstate⟩
    rw [List.append_assoc, ← hpending]
    exact (List.take_append_drop room _).symm

theorem finite (s : Holding σ) (offered : Bytes) : ∃ most, ∀ taken emitted final,
    eager.engine.Calls eager.engine.Anywhere s offered taken emitted final →
      emitted.length ≤ most := by
  refine ⟨(eager.ready s offered).pending.length, fun taken emitted final hcalls => ?_⟩
  rw [(calls_eq hcalls).1, List.length_append]
  omega

theorem spent_iff {s : Holding σ} {offered : Bytes} (h : eager.Settled s offered) :
    eager.engine.Spent s offered ↔ s.pending = [] := by
  have hready := ready_of_settled h
  constructor
  · intro hspent
    have := hspent _ _ _ (.last (Nat.succ_pos s.pending.length))
    simpa [engine, drain, hready] using this
  · intro hpending taken emitted final hcalls
    have := (calls_eq hcalls).1
    rw [hready, hpending] at this
    exact (List.append_eq_nil_iff.mp this.symm).1

/-! ## Collecting -/

theorem status_call_eq_failed_iff (s : Holding σ) (offered : Bytes) (room : Nat) :
    (eager.engine.call s offered room).status = .failed
      ↔ eager.status (eager.engine.call s offered room).state.state = .failed := by
  simp only [drain]
  split <;> simp_all

/-- An eager engine may be collected from when it decompresses. -/
theorem inflates (eager : Eager σ) : eager.engine.Inflates where
  toOrderly := orderly eager
  finite := finite
  spare s offered room hlt hstatus := by
    have hpending : (eager.ready s offered).pending.length < room := by
      simp only [drain, List.length_take] at hlt
      omega
    have hgoing : eager.status (eager.ready s offered).state = .going := by
      simpa only [drain, Nat.lt_asymm hpending, and_false, if_false] using hstatus
    have hleaves := leaves_eq_nil room hgoing
    refine ⟨hleaves, ?_⟩
    rw [spent_iff (hleaves ▸ settled_call s offered room)]
    exact List.drop_eq_nil_of_le (Nat.le_of_lt hpending)
  ended s offered room hstatus := by
    rw [spent_iff (settled_call s offered room)]
    refine List.drop_eq_nil_of_le (Nat.le_of_not_lt fun hlt => ?_)
    simp only [drain] at hstatus
    split at hstatus <;> simp_all

/-- It has run and given out everything. -/
def Flushed (s : Holding σ) : Prop := s.hasRun = true ∧ s.pending = []

/-- An eager engine that never stops may be collected from when it compresses. -/
theorem deflates (hgoing : ∀ state, eager.status state = .going) {step : Nat} (hstep : 0 < step) :
    eager.engine.Deflates Flushed step where
  toOrderly := orderly eager
  goes s offered room hfailed := by
    rw [status_call_eq_failed_iff, hgoing] at hfailed
    cases hfailed
  spare s offered room hlt := by
    refine ⟨leaves_eq_nil room (hgoing _), ready_hasRun s offered, List.drop_eq_nil_of_le ?_⟩
    simp only [drain, List.length_take] at hlt
    omega
  finite s offered := by
    obtain ⟨most, hmost⟩ := (inflates eager).finite s offered
    exact ⟨most, fun taken emitted final hcalls =>
      hmost taken emitted final (hcalls.mono fun _ _ _ => trivial)⟩
  again s room hflushed _ := by
    have hready : eager.ready s [] = s := ready_of_settled ⟨hflushed.1, .inl rfl⟩
    simpa [drain, hready, hflushed.2] using hstep

section Collected

variable (eager) {grow : Nat → Nat} {step : Nat} (hstep : 0 < step)
  (hgrow : ∀ capacity, capacity + step ≤ grow capacity) (capacity : Nat) (state : σ)
  (input : Bytes)

include hstep hgrow

/-- **Collecting from an eager engine that compresses gives exactly what it works out.** -/
theorem deflateAll_eq (hgoing : ∀ state, eager.status state = .going) :
    ∃ collected, eager.engine.deflateAll grow capacity (fresh state) input = some collected
      ∧ collected.output = (eager.work state input).2
      ∧ collected.state.state = (eager.work state input).1 := by
  obtain ⟨output, final, hcalls, -, -, hflushed, hcollect⟩ :=
    (deflates hgoing hstep).collected hstep hgrow capacity (fresh state) input
  obtain ⟨hpending, hstate⟩ := calls_eq hcalls
  refine ⟨_, hcollect, ?_, hstate⟩
  rw [hflushed.2, List.append_nil] at hpending
  exact hpending.symm

/-- **Collecting from an eager engine that decompresses gives exactly what it works out**, and fails
if that does. -/
theorem inflateAll_eq :
    ∃ collected, eager.engine.inflateAll grow capacity (fresh state) input = some collected
      ∧ (collected.status = .failed ↔ eager.status (eager.work state input).1 = .failed)
      ∧ (collected.status ≠ .failed → collected.output = (eager.work state input).2)
      ∧ collected.state.state = (eager.work state input).1 := by
  obtain ⟨taken, output, final, hcalls, -, hspent, hcollect⟩ :=
    (inflates eager).collected hstep hgrow capacity (fresh state) input
  obtain ⟨s, offered, room, hfinal, hleaves⟩ := hcalls.exists_call (orderly eager)
  obtain ⟨hpending, hstate⟩ := calls_eq hcalls
  refine ⟨_, hcollect, ?_, fun hne => ?_, hstate⟩
  · rw [hfinal, status_call_eq_failed_iff, ← hfinal, hstate]
    rfl
  · have hnil : final.state.pending = [] := by
      have hsettled : eager.Settled final.state (input.drop taken.length) := by
        rw [hfinal, hleaves]
        exact settled_call s offered room
      exact (spent_iff hsettled).mp (hspent hne)
    rw [hnil, List.append_nil] at hpending
    exact hpending.symm

end Collected

end Eager

end DeflateEcho.Deflate
