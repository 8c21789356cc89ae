import DeflateEcho.Codec

/-!
# Proofs/Codec/Buffers — collecting through a buffer is like one call with room for everything

Whatever the capacity of a buffer at first and the step in which it grows, collecting ends with
all that there was to take and to give (`Deflates.collected`, `Inflates.collected`).  How many calls
that takes shows in the output only if it shows in what the engine gives: for a `Seamless` one,
which gives the same however its room is cut, the output is that of one call with enough room.  An
engine that compresses may have flushed once more behind it, where the flush ended exactly with the
buffer.
-/

namespace DeflateEcho.Deflate

namespace Engine

variable {e : Engine}

/-! ## One call instead of several -/

/-- **What an engine gives out does not depend on how its room is cut**: with more room a call gives
out what the next one would as well, if another call is `allowed` behind it, and else no more. -/
structure Seamless (e : Engine) (allowed : e.State → Bytes → Prop) : Prop where
  goesOn : ∀ state offered room more, 0 < room →
    allowed (e.call state offered room).state (e.leaves state offered room) →
    (e.call state offered (room + more)).emitted = (e.call state offered room).emitted
      ++ (e.call (e.call state offered room).state (e.leaves state offered room) more).emitted
  stops : ∀ state offered room more, 0 < room →
    ¬ allowed (e.call state offered room).state (e.leaves state offered room) →
    (e.call state offered (room + more)).emitted = (e.call state offered room).emitted

theorem Calls.totalIn_eq (h : Orderly e) {allowed : e.State → Bytes → Prop} {state : e.State}
    {offered taken emitted : Bytes} {final : Call e.State}
    (hcalls : Calls e allowed state offered taken emitted final) :
    e.totalIn final.state = e.totalIn state + taken.length := by
  have hcall : ∀ state offered room, e.totalIn (e.call state offered room).state
      = e.totalIn state + e.takes state offered room := by
    intro state offered room
    have := h.totalIn_le state offered room
    unfold takes
    omega
  induction hcalls with
  | last => rw [hcall, length_take_takes h]
  | next _ _ _ ih => rw [ih, hcall, List.length_append, length_take_takes h, Nat.add_assoc]

/-- A call with the room of several gives out what they do, and one with more room what another
call behind them would as well. -/
theorem Calls.emitted_eq (h : Orderly e) (hseamless : e.Seamless e.Anywhere) {state : e.State}
    {offered taken emitted : Bytes} {final : Call e.State}
    (hcalls : Calls e e.Anywhere state offered taken emitted final) :
    ∃ rooms, ∀ more, (e.call state offered (rooms + more)).emitted
      = emitted ++ (e.call final.state (offered.drop taken.length) more).emitted := by
  induction hcalls with
  | @last state offered room hroom =>
    refine ⟨room, fun more => ?_⟩
    rw [hseamless.goesOn state offered room more hroom trivial, length_take_takes h, leaves]
  | @next state offered room taken emitted final hroom _ _ ih =>
    obtain ⟨rooms, hrooms⟩ := ih
    refine ⟨room + rooms, fun more => ?_⟩
    rw [Nat.add_assoc, hseamless.goesOn state offered room _ hroom trivial, hrooms more,
      List.append_assoc, List.length_append, length_take_takes h, leaves, List.drop_drop]

/-- Where nothing more comes, one more call gives nothing. -/
theorem Spent.emitted_eq_nil (h : Orderly e) {state : e.State} {offered : Bytes}
    (hspent : e.Spent state offered) (room : Nat) : (e.call state offered room).emitted = [] := by
  rcases Nat.eq_zero_or_pos room with rfl | hroom
  · exact List.length_eq_zero_iff.mp (Nat.le_zero.mp (h.emitted_le state offered 0))
  · exact hspent _ _ _ (.last hroom)

/-- Where there is nothing to do, only one call is made, and it flushes once more. -/
theorem Calls.length_lt_of_not_pending {flushed : e.State → Prop} {step : Nat}
    (h : Deflates e flushed step) {state : e.State} {offered taken emitted : Bytes}
    {final : Call e.State} (hcalls : Calls e (Pending flushed) state offered taken emitted final)
    (hidle : ¬ Pending flushed state offered) : emitted.length < step := by
  cases hcalls with
  | @last _ _ room hroom =>
    obtain ⟨rfl, hflushed⟩ : offered = [] ∧ flushed state := by simpa [Pending] using hidle
    rcases Nat.lt_or_ge room step with hless | hleast
    · exact Nat.lt_of_le_of_lt (h.emitted_le state [] room) hless
    · exact h.again state room hflushed hleast
  | next _ hpending _ => exact absurd hpending hidle

/-- **One call has flushed when several have**, but for what the last of them flushed once more. -/
theorem Calls.exists_extra {flushed : e.State → Prop} {step : Nat} (h : Deflates e flushed step)
    (hstep : 0 < step) (hseamless : e.Seamless (Pending flushed)) {state : e.State}
    {offered taken emitted : Bytes} {final : Call e.State}
    (hcalls : Calls e (Pending flushed) state offered taken emitted final)
    (hflushed : ¬ Pending flushed final.state (offered.drop taken.length)) :
    ∃ extra rooms, extra.length < step
      ∧ ∀ more, emitted = (e.call state offered (rooms + more)).emitted ++ extra := by
  induction hcalls with
  | @last state offered room hroom =>
    rw [length_take_takes h.toOrderly, ← leaves] at hflushed
    refine ⟨[], room, hstep, fun more => ?_⟩
    rw [hseamless.stops state offered room more hroom hflushed, List.append_nil]
  | @next state offered room taken emitted final hroom hpending hrest ih =>
    rw [List.length_append, length_take_takes h.toOrderly, ← List.drop_drop, ← leaves] at hflushed
    by_cases hnext : Pending flushed (e.call state offered room).state (e.leaves state offered room)
    · obtain ⟨extra, rooms, hextra, hemitted⟩ := ih hflushed
      refine ⟨extra, room + rooms, hextra, fun more => ?_⟩
      rw [Nat.add_assoc, hseamless.goesOn state offered room _ hroom hnext, List.append_assoc,
        ← hemitted more]
    -- There was nothing left to flush, so that what is left of the calls is one that flushed again.
    · refine ⟨emitted, room, hrest.length_lt_of_not_pending h hnext, fun more => ?_⟩
      rw [hseamless.stops state offered room more hroom hnext]

end Engine

/-! ## Eager engines -/

namespace Eager

variable {σ : Type}

/-- An eager engine gives the same however its room is cut. -/
theorem seamless (eager : Eager σ) : eager.engine.Seamless eager.engine.Anywhere where
  goesOn s offered room more _ _ := by
    have hsettled : eager.Settled (eager.engine.call s offered room).state
      (eager.engine.leaves s offered room) := settled_call s offered room
    have hready := ready_of_settled hsettled
    simp only [drain, List.take_add] at hready ⊢
    rw [hready]
  stops _ _ _ _ _ hnot := absurd trivial hnot

/-- When it never stops, it gives nothing more behind a flush. -/
theorem seamless_flushed {eager : Eager σ} (hgoing : ∀ state, eager.status state = .going) :
    eager.engine.Seamless (Engine.Pending Flushed) where
  goesOn s offered room more hroom _ := eager.seamless.goesOn s offered room more hroom trivial
  stops s offered room more _ hidle := by
    have hflushed : Flushed (eager.engine.call s offered room).state := by
      simpa [Engine.Pending, leaves_eq_nil room (hgoing _)] using hidle
    have hnil : (eager.ready s offered).pending.drop room = [] := hflushed.2
    simp only [drain, List.take_add, hnil, List.take_nil, List.append_nil]

end Eager

namespace Engine

/-! ## Collecting -/

/-- **What collecting from an engine that compresses comes to**: calls that take the whole input,
each byte once and in order, and give out the output between them, with nothing left to flush. -/
structure DeflatesTo (e : Engine) (flushed : e.State → Prop) (step : Nat) (state : e.State)
    (input output : Bytes) (final : Call e.State) : Prop where
  calls : Calls e e.Anywhere state input input output final
  totalIn_eq : e.totalIn final.state = e.totalIn state + input.length
  not_failed : final.status ≠ .failed
  all_flushed : flushed final.state
  /-- Where the room does not show, the output is that of one call, but for what may have been
  flushed once more. -/
  one_call : e.Seamless (Pending flushed) → Pending flushed state input →
    ∃ extra least, extra.length < step
      ∧ ∀ room, least ≤ room → output = (e.call state input room).emitted ++ extra

/-- **What collecting from an engine that decompresses comes to**: calls that take the bytes up to
the end of the stream, or all of them if there is none, each byte once and in order. -/
structure InflatesTo (e : Engine) (state : e.State) (input taken output : Bytes)
    (final : Call e.State) : Prop where
  calls : Calls e e.Anywhere state input taken output final
  taken_prefix : taken <+: input
  totalIn_eq : e.totalIn final.state = e.totalIn state + taken.length
  taken_eq : final.status = .going → taken = input
  /-- Unless it failed, no further call would give anything. -/
  spent : final.status ≠ .failed → e.Spent final.state (input.drop taken.length)
  /-- Where the room does not show, the output is that of one call. -/
  one_call : e.Seamless e.Anywhere → final.status ≠ .failed →
    ∃ least, ∀ room, least ≤ room → output = (e.call state input room).emitted

/-- **Collecting through a buffer ends, and is like one call with room for everything**, whatever the
engine, the capacity of the buffer at first and the step in which it grows. -/
theorem collecting_is_one_call {deflater inflater : Engine} {flushed : deflater.State → Prop}
    {step : Nat} {grow : Nat → Nat} (hdeflater : deflater.Deflates flushed step)
    (hinflater : inflater.Inflates) (hstep : 0 < step)
    (hgrow : ∀ capacity, capacity + step ≤ grow capacity) (capacity : Nat) :
    (∀ state input, ∃ output final,
      deflater.deflateAll grow capacity state input = some ⟨final.state, output, final.status⟩
        ∧ deflater.DeflatesTo flushed step state input output final)
    ∧ ∀ state input, ∃ taken output final,
      inflater.inflateAll grow capacity state input = some ⟨final.state, output, final.status⟩
        ∧ inflater.InflatesTo state input taken output final := by
  constructor
  · intro state input
    obtain ⟨output, final, hcalls, hpending, hgoes, hflushed, hcollect⟩ :=
      hdeflater.collected hstep hgrow capacity state input
    refine ⟨output, final, hcollect, hcalls, hcalls.totalIn_eq hdeflater.toOrderly, hgoes, hflushed,
      fun hseamless hstart => ?_⟩
    have hidle : ¬ Pending flushed final.state (input.drop input.length) := by
      simp [Pending, hflushed]
    obtain ⟨extra, rooms, hextra, hemitted⟩ :=
      (hpending hstart).exists_extra hdeflater hstep hseamless hidle
    refine ⟨extra, rooms, hextra, fun room hroom => ?_⟩
    rw [hemitted (room - rooms), Nat.add_sub_cancel' hroom]
  · intro state input
    obtain ⟨taken, output, final, hcalls, hgoing, hspent, hcollect⟩ :=
      hinflater.collected hstep hgrow capacity state input
    refine ⟨taken, output, final, hcollect, hcalls, hcalls.taken_prefix,
      hcalls.totalIn_eq hinflater.toOrderly, hgoing, hspent, fun hseamless hne => ?_⟩
    obtain ⟨rooms, hemitted⟩ := hcalls.emitted_eq hinflater.toOrderly hseamless
    refine ⟨rooms, fun room hroom => ?_⟩
    have hone := hemitted (room - rooms)
    rw [(hspent hne).emitted_eq_nil hinflater.toOrderly, List.append_nil,
      Nat.add_sub_cancel' hroom] at hone
    exact hone.symm

/-- The codec's engines, collected from byte by byte into a buffer that holds nothing at first. -/
theorem collecting_is_one_call_bytewise :
    (Codec.deflating.engine.Deflates Eager.Flushed 1 ∧ Codec.inflating.engine.Inflates
      ∧ 0 < 1 ∧ ∀ capacity, capacity + 1 ≤ Nat.succ capacity)
    ∧ (Codec.deflating.engine.Seamless (Pending Eager.Flushed)
      ∧ Codec.inflating.engine.Seamless Codec.inflating.engine.Anywhere)
    ∧ (∃ output final, Codec.deflating.engine.deflateAll Nat.succ 0 (Eager.fresh 0) [0x78, 0x78]
        = some ⟨final.state, output, final.status⟩
      ∧ Codec.deflating.engine.DeflatesTo Eager.Flushed 1 (Eager.fresh 0) [0x78, 0x78] output final)
    ∧ ∃ taken output final, Codec.inflating.engine.inflateAll Nat.succ 0 (Eager.fresh {})
        [0xab, 0xa8, 0x00, 0x00, 0x2a] = some ⟨final.state, output, final.status⟩
      ∧ Codec.inflating.engine.InflatesTo (Eager.fresh {}) [0xab, 0xa8, 0x00, 0x00, 0x2a] taken
        output final := by
  have hdeflater : Codec.deflating.engine.Deflates Eager.Flushed 1 :=
    Eager.deflates (fun _ => rfl) (by decide)
  have hinflater : Codec.inflating.engine.Inflates := Codec.inflating.inflates
  have hgrow : ∀ capacity, capacity + 1 ≤ Nat.succ capacity := fun _ => Nat.le_refl _
  obtain ⟨hdeflated, hinflated⟩ :=
    collecting_is_one_call hdeflater hinflater (by decide) hgrow 0
  exact ⟨⟨hdeflater, hinflater, by decide, hgrow⟩,
    ⟨Eager.seamless_flushed fun _ => rfl, Codec.inflating.seamless⟩,
    hdeflated (Eager.fresh 0) [0x78, 0x78],
    hinflated (Eager.fresh {}) [0xab, 0xa8, 0x00, 0x00, 0x2a]⟩

end Engine

end DeflateEcho.Deflate
