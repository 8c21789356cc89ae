import DeflateEcho.Deflate.Engine

/-!
# Deflate/Collecting — collecting from an engine comes to an end

What an engine does over several calls is said by `Calls`: calls one after the other, each offered
what the one before it left.  `Deflates` and `Inflates` say in these terms what the two directions
need of an engine, and `Deflates.collected` and `Inflates.collected` that collecting from it then
ends, with all that there was to take and to give.

The proof counts output.  A call behind which collecting goes on has filled its room, so it has
given out at least one byte, and there are only so many.  The exception is an engine that flushes
once more than it has to: it may do so for ever, but not in a room as large as the buffer grows by.
-/

namespace DeflateEcho.Deflate.Engine

/-! ## Calls one after the other -/

/-- **Calls one after the other**, each with some room and offered what the one before it left.
From this state on and with these bytes to take they take these, all together, and give out these;
the last call is added.  A call is followed by others only where that is `allowed`. -/
inductive Calls (e : Engine) (allowed : e.State → Bytes → Prop) :
    e.State → Bytes → (taken emitted : Bytes) → Call e.State → Prop where
  | last {state : e.State} {offered : Bytes} {room : Nat} (hroom : 0 < room) :
    Calls e allowed state offered (offered.take (e.takes state offered room))
      (e.call state offered room).emitted (e.call state offered room)
  | next {state : e.State} {offered : Bytes} {room : Nat} {taken emitted : Bytes}
    {final : Call e.State} (hroom : 0 < room) (hallowed : allowed state offered)
    (rest : Calls e allowed (e.call state offered room).state (e.leaves state offered room)
      taken emitted final) :
    Calls e allowed state offered (offered.take (e.takes state offered room) ++ taken)
      ((e.call state offered room).emitted ++ emitted) final

/-- Calls may follow each other anywhere. -/
abbrev Anywhere (e : Engine) (_ : e.State) (_ : Bytes) : Prop := True

variable {e : Engine}

theorem Calls.mono {allowed allowed' : e.State → Bytes → Prop}
    (himp : ∀ state offered, allowed state offered → allowed' state offered) {state : e.State}
    {offered taken emitted : Bytes} {final : Call e.State}
    (h : Calls e allowed state offered taken emitted final) :
    Calls e allowed' state offered taken emitted final := by
  induction h with
  | last hroom => exact .last hroom
  | next hroom hallowed _ ih => exact .next hroom (himp _ _ hallowed) ih

/-- What calls take is taken from the front. -/
theorem Calls.taken_prefix {allowed : e.State → Bytes → Prop} {state : e.State}
    {offered taken emitted : Bytes} {final : Call e.State}
    (h : Calls e allowed state offered taken emitted final) : taken <+: offered := by
  induction h with
  | last => exact List.take_prefix _ _
  | @next state offered room _ _ _ _ _ _ ih =>
    have := (List.prefix_append_right_inj (offered.take (e.takes state offered room))).mpr ih
    rwa [leaves, List.take_append_drop] at this

/-! ## What is asked of an engine -/

/-- **A call takes a front of what it is offered and keeps within its room.** -/
structure Orderly (e : Engine) : Prop where
  totalIn_le : ∀ state offered room, e.totalIn state ≤ e.totalIn (e.call state offered room).state
  takes_le : ∀ state offered room, e.takes state offered room ≤ offered.length
  emitted_le : ∀ state offered room, (e.call state offered room).emitted.length ≤ room

theorem length_take_takes (h : Orderly e) (state : e.State) (offered : Bytes) (room : Nat) :
    (offered.take (e.takes state offered room)).length = e.takes state offered room := by
  rw [List.length_take, Nat.min_eq_left (h.takes_le state offered room)]

/-- The last call is one of the engine's, and leaves what all of them leave. -/
theorem Calls.exists_call (h : Orderly e) {allowed : e.State → Bytes → Prop} {state : e.State}
    {offered taken emitted : Bytes} {final : Call e.State}
    (hcalls : Calls e allowed state offered taken emitted final) :
    ∃ state' offered' room, final = e.call state' offered' room
      ∧ offered.drop taken.length = e.leaves state' offered' room := by
  induction hcalls with
  | last => exact ⟨_, _, _, rfl, by rw [length_take_takes h, leaves]⟩
  | next _ _ _ ih =>
    rwa [List.length_append, length_take_takes h, ← List.drop_drop]

/-- There are bytes to take, or something is still to be flushed. -/
def Pending (flushed : e.State → Prop) (state : e.State) (offered : Bytes) : Prop :=
  offered ≠ [] ∨ ¬ flushed state

/-- **What collecting needs of an engine that compresses**, when the buffer grows by `step`.  Where
it is `flushed`, everything due for what was taken has been given out; a call may then flush once
more all the same. -/
structure Deflates (e : Engine) (flushed : e.State → Prop) (step : Nat) : Prop
    extends Orderly e where
  goes : ∀ state offered room, (e.call state offered room).status ≠ .failed
  /-- Room is left only when everything is taken and flushed. -/
  spare : ∀ state offered room, (e.call state offered room).emitted.length < room →
    e.leaves state offered room = [] ∧ flushed (e.call state offered room).state
  /-- Only so much is given out while there is something to do, and by one call more. -/
  finite : ∀ state offered, ∃ most, ∀ taken emitted final,
    Calls e (Pending flushed) state offered taken emitted final → emitted.length ≤ most
  /-- Flushing once more takes less than a step. -/
  again : ∀ state room, flushed state → step ≤ room →
    (e.call state [] room).emitted.length < step

/-- Nothing more comes of offering these bytes, however often the engine is called. -/
def Spent (e : Engine) (state : e.State) (offered : Bytes) : Prop :=
  ∀ taken emitted final, Calls e e.Anywhere state offered taken emitted final → emitted = []

/-- **What collecting needs of an engine that decompresses.** -/
structure Inflates (e : Engine) : Prop extends Orderly e where
  /-- Room is left only when everything is taken and everything due has been given out, or the
  stream has ended or failed. -/
  spare : ∀ state offered room, (e.call state offered room).emitted.length < room →
    (e.call state offered room).status = .going →
    e.leaves state offered room = [] ∧ e.Spent (e.call state offered room).state []
  /-- Nothing comes behind the end of the stream. -/
  ended : ∀ state offered room, (e.call state offered room).status = .ended →
    e.Spent (e.call state offered room).state (e.leaves state offered room)
  /-- Only so much is given out for an input. -/
  finite : ∀ state offered, ∃ most, ∀ taken emitted final,
    Calls e e.Anywhere state offered taken emitted final → emitted.length ≤ most

/-! ## One round of collecting -/

/-- The bytes that are still to be taken, by the count. -/
structure Stands (e : Engine) (start : Nat) (input : Bytes) (state : e.State) (left : Bytes) :
    Prop where
  start_le : start ≤ e.totalIn state
  le_length : e.totalIn state - start ≤ input.length
  drop_eq : input.drop (e.totalIn state - start) = left

theorem stands_start (state : e.State) (input : Bytes) :
    e.Stands (e.totalIn state) input state input :=
  ⟨Nat.le_refl _, by simp, by simp⟩

/-- Behind a call the count tells what it left. -/
theorem Stands.call (h : Orderly e) {start : Nat} {input left : Bytes} {state : e.State}
    (hstands : e.Stands start input state left) (room : Nat) :
    e.Stands start input (e.call state left room).state (e.leaves state left room) := by
  obtain ⟨hstart, hlength, rfl⟩ := hstands
  have htotal := h.totalIn_le state (input.drop (e.totalIn state - start)) room
  have htakes := h.takes_le state (input.drop (e.totalIn state - start)) room
  rw [List.length_drop] at htakes
  unfold leaves
  unfold takes at *
  exact ⟨by omega, by omega, by rw [List.drop_drop]; congr 1; omega⟩

/-- All is taken when nothing is left. -/
theorem Stands.length_eq_iff {start : Nat} {input left : Bytes} {state : e.State}
    (h : e.Stands start input state left) :
    e.totalIn state - start = input.length ↔ left = [] := by
  have hlength := h.le_length
  rw [← h.drop_eq, List.drop_eq_nil_iff]
  omega

/-- Collecting stops with this call. -/
def Stops (e : Engine) (quits : e.State → Call e.State → Bool) (state : e.State) (offered : Bytes)
    (room : Nat) : Prop :=
  quits state (e.call state offered room) = true
    ∨ e.leaves state offered room = [] ∧ (e.call state offered room).emitted.length < room

/-- The buffer has room, and a whole step of it if it was full. -/
theorem exists_room {grow : Nat → Nat} {step : Nat} (hstep : 0 < step)
    (hgrow : ∀ capacity, capacity + step ≤ grow capacity) {size capacity : Nat}
    (hsize : size ≤ capacity) :
    ∃ room, 0 < room ∧ (size = capacity → step ≤ room)
      ∧ (if size = capacity then grow capacity else capacity) = size + room := by
  by_cases hfull : size = capacity
  · have := hgrow capacity
    exact ⟨grow capacity - capacity, by omega, fun _ => by omega, by rw [if_pos hfull]; omega⟩
  · exact ⟨capacity - size, by omega, fun h => absurd h hfull, by rw [if_neg hfull]; omega⟩

theorem size_append_bytes (output : Array UInt8) (bytes : Bytes) :
    (output ++ bytes).size = output.size + bytes.length := by
  rw [← Array.length_toList, Array.toList_appendList, List.length_append, Array.length_toList]

section Round

variable {grow : Nat → Nat} {quits : e.State → Call e.State → Bool} {start : Nat}
  {input left : Bytes} {state : e.State} {capacity room : Nat} {output : Array UInt8}

/-- One round, with the room it has. -/
theorem collect_eq (h : Orderly e) (hstands : e.Stands start input state left)
    (hcapacity : (if output.size = capacity then grow capacity else capacity)
      = output.size + room) :
    (e.Stops quits state left room →
      e.collect grow quits start input state capacity output
        = some ⟨(e.call state left room).state,
            output.toList ++ (e.call state left room).emitted,
            (e.call state left room).status⟩)
    ∧ (¬ e.Stops quits state left room →
      e.collect grow quits start input state capacity output
        = e.collect grow quits start input (e.call state left room).state (output.size + room)
            (output ++ (e.call state left room).emitted)) := by
  have hround := collect.eq_def e grow quits start input state capacity output
  have hleft := (hstands.call h room).length_eq_iff
  simp only [hcapacity, hstands.drop_eq, Nat.add_sub_cancel_left] at hround
  have hstops : (quits state (e.call state left room)
      || (e.totalIn (e.call state left room).state - start = input.length
        && (output ++ (e.call state left room).emitted).size < output.size + room)) = true
      ↔ e.Stops quits state left room := by
    simp [Stops, hleft, size_append_bytes]
  rw [hround]
  exact ⟨fun hs => by rw [if_pos (hstops.mpr hs)]; simp, fun hs => if_neg fun h => hs (hstops.mp h)⟩

/-- **Collecting ends**: it comes to what calls from here on take and give out, and the last of them
is `Done` with what they leave. -/
def Ends (e : Engine) (grow : Nat → Nat) (quits : e.State → Call e.State → Bool) (start : Nat)
    (input : Bytes) (allowed : e.State → Bytes → Prop) (Done : Bytes → Call e.State → Prop)
    (state : e.State) (left : Bytes) (capacity : Nat) (output : Array UInt8) : Prop :=
  ∃ taken emitted final, Calls e allowed state left taken emitted final
    ∧ Done (left.drop taken.length) final
    ∧ e.collect grow quits start input state capacity output
      = some ⟨final.state, output.toList ++ emitted, final.status⟩

variable {allowed : e.State → Bytes → Prop} {Done : Bytes → Call e.State → Prop}

theorem Ends.mono {allowed' : e.State → Bytes → Prop}
    (himp : ∀ state offered, allowed state offered → allowed' state offered)
    (h : e.Ends grow quits start input allowed Done state left capacity output) :
    e.Ends grow quits start input allowed' Done state left capacity output := by
  obtain ⟨taken, emitted, final, hcalls, hrest⟩ := h
  exact ⟨taken, emitted, final, hcalls.mono himp, hrest⟩

theorem ends_of_stops (h : Orderly e) (hstands : e.Stands start input state left)
    (hroom : 0 < room)
    (hcapacity : (if output.size = capacity then grow capacity else capacity)
      = output.size + room)
    (hstops : e.Stops quits state left room)
    (hdone : Done (e.leaves state left room) (e.call state left room)) :
    e.Ends grow quits start input allowed Done state left capacity output := by
  refine ⟨_, _, _, .last hroom, ?_, (collect_eq h hstands hcapacity).1 hstops⟩
  rwa [length_take_takes h]

theorem ends_of_next (h : Orderly e) (hstands : e.Stands start input state left)
    (hroom : 0 < room)
    (hcapacity : (if output.size = capacity then grow capacity else capacity)
      = output.size + room)
    (hgoes : ¬ e.Stops quits state left room) (hallowed : allowed state left)
    (hends : e.Ends grow quits start input allowed Done (e.call state left room).state
      (e.leaves state left room) (output.size + room)
      (output ++ (e.call state left room).emitted)) :
    e.Ends grow quits start input allowed Done state left capacity output := by
  obtain ⟨taken, emitted, final, hcalls, hdone, hcollect⟩ := hends
  refine ⟨_, _, _, .next hroom hallowed hcalls, ?_, ?_⟩
  · rwa [List.length_append, length_take_takes h, ← List.drop_drop]
  · rw [(collect_eq h hstands hcapacity).2 hgoes, hcollect, Array.toList_appendList,
      List.append_assoc]

end Round

/-! ## All rounds -/

/-- **What makes collecting end**: a round behind which it goes on has filled its room, and one with
nothing to do and a whole step of room is not gone on from.  Where it stops it is `Done`. -/
structure Settles (e : Engine) (quits : e.State → Call e.State → Bool) (step : Nat)
    (allowed : e.State → Bytes → Prop) (Done : Bytes → Call e.State → Prop) : Prop
    extends Orderly e where
  fills : ∀ state offered room, ¬ e.Stops quits state offered room →
    (e.call state offered room).emitted.length = room
  idle : ∀ state offered room, ¬ allowed state offered → step ≤ room →
    e.Stops quits state offered room
  done : ∀ state offered room, 0 < room → e.Stops quits state offered room →
    Done (e.leaves state offered room) (e.call state offered room)

/-- Behind a round that is gone on from, the buffer is full. -/
theorem Settles.size_eq {quits : e.State → Call e.State → Bool} {step : Nat}
    {allowed : e.State → Bytes → Prop} {Done : Bytes → Call e.State → Prop}
    (h : e.Settles quits step allowed Done) {state : e.State} {left : Bytes} {room : Nat}
    (output : Array UInt8) (hstops : ¬ e.Stops quits state left room) :
    (output ++ (e.call state left room).emitted).size = output.size + room := by
  rw [size_append_bytes, h.fills state left room hstops]

section Rounds

variable {grow : Nat → Nat} {quits : e.State → Call e.State → Bool} {step start : Nat}
  {input : Bytes} {allowed : e.State → Bytes → Prop} {Done : Bytes → Call e.State → Prop}
  (h : e.Settles quits step allowed Done) (hstep : 0 < step)
  (hgrow : ∀ capacity, capacity + step ≤ grow capacity)
include h hstep hgrow

/-- **Where only so much may still be given out, collecting ends.**  The induction is on how much
that is: a round behind which collecting goes on has filled its room. -/
theorem Settles.ends_of_most (most : Nat) {state : e.State} {left : Bytes} {capacity : Nat}
    {output : Array UInt8} (hstands : e.Stands start input state left)
    (hsize : output.size ≤ capacity) (hwhere : output.size = capacity ∨ allowed state left)
    (hmost : ∀ taken emitted final, Calls e allowed state left taken emitted final →
      emitted.length ≤ most) :
    e.Ends grow quits start input allowed Done state left capacity output := by
  induction most using Nat.strongRecOn generalizing state left capacity output with
  | ind most ih =>
    obtain ⟨room, hroom, hfull, hcapacity⟩ := exists_room hstep hgrow hsize
    by_cases hstops : e.Stops quits state left room
    · exact ends_of_stops h.toOrderly hstands hroom hcapacity hstops
        (h.done state left room hroom hstops)
    have hallowed : allowed state left := by
      refine hwhere.elim (fun hcap => ?_) id
      exact Classical.byContradiction fun hnot =>
        hstops (h.idle state left room hnot (hfull hcap))
    have hfilled := h.fills state left room hstops
    have hleast : room ≤ most := hfilled ▸ hmost _ _ _ (.last hroom)
    have hbuffer := h.size_eq output hstops
    refine ends_of_next h.toOrderly hstands hroom hcapacity hstops hallowed ?_
    refine ih (most - room) (by omega) (hstands.call h.toOrderly room) (Nat.le_of_eq hbuffer)
      (.inl hbuffer) fun taken emitted final hcalls => ?_
    have := hmost _ _ _ (.next hroom hallowed hcalls)
    rw [List.length_append, hfilled] at this
    omega

/-- **Collecting ends**, from wherever it begins.  If it begins where there is nothing to do, that
is a place like no other. -/
theorem Settles.ends (hfinite : ∀ state offered, ∃ most, ∀ taken emitted final,
      Calls e allowed state offered taken emitted final → emitted.length ≤ most)
    {state : e.State} {left : Bytes} {capacity : Nat} {output : Array UInt8}
    (hstands : e.Stands start input state left) (hsize : output.size ≤ capacity) :
    e.Ends grow quits start input
      (fun state' offered => allowed state' offered ∨ ¬ allowed state left) Done state left capacity
      output := by
  have hmono : ∀ state' offered, allowed state' offered →
      allowed state' offered ∨ ¬ allowed state left := fun _ _ => .inl
  by_cases hallowed : allowed state left
  · obtain ⟨most, hmost⟩ := hfinite state left
    exact (h.ends_of_most hstep hgrow most hstands hsize (.inr hallowed) hmost).mono hmono
  obtain ⟨room, hroom, -, hcapacity⟩ := exists_room hstep hgrow hsize
  by_cases hstops : e.Stops quits state left room
  · exact ends_of_stops h.toOrderly hstands hroom hcapacity hstops
      (h.done state left room hroom hstops)
  obtain ⟨most, hmost⟩ := hfinite (e.call state left room).state (e.leaves state left room)
  -- From the second round on the buffer is full, so that a round with nothing to do has a step.
  have hbuffer := h.size_eq output hstops
  have hends := h.ends_of_most hstep hgrow most (hstands.call h.toOrderly room)
    (Nat.le_of_eq hbuffer) (.inl hbuffer) hmost
  exact ends_of_next h.toOrderly hstands hroom hcapacity hstops (.inr hallowed) (hends.mono hmono)

end Rounds

/-! ## The two directions -/

/-- Compressing stops with all input taken and flushed. -/
theorem Deflates.settles {flushed : e.State → Prop} {step : Nat} (h : Deflates e flushed step) :
    e.Settles e.deflateQuits step (Pending flushed)
      fun rest final => rest = [] ∧ final.status ≠ .failed ∧ flushed final.state where
  toOrderly := h.toOrderly
  fills state offered room hstops := by
    refine Nat.le_antisymm (h.emitted_le state offered room) (Nat.le_of_not_lt fun hlt => ?_)
    exact hstops (.inr ⟨(h.spare state offered room hlt).1, hlt⟩)
  idle state offered room hidle hroom := by
    obtain ⟨rfl, hflushed⟩ : offered = [] ∧ flushed state := by simpa [Pending] using hidle
    have hlt := Nat.lt_of_lt_of_le (h.again state room hflushed hroom) hroom
    exact .inr ⟨(h.spare state [] room hlt).1, hlt⟩
  done state offered room _ hstops := by
    have hgoes := h.goes state offered room
    obtain hquits | ⟨hleaves, hlt⟩ := hstops
    · exact absurd (by simpa [deflateQuits] using hquits) hgoes
    · exact ⟨hleaves, hgoes, (h.spare state offered room hlt).2⟩

/-- Decompressing stops with all input taken, or at the end of the stream, or with a failure. -/
theorem Inflates.settles (h : Inflates e) (step : Nat) :
    e.Settles e.inflateQuits step e.Anywhere
      fun rest final => (final.status = .going → rest = [])
        ∧ (final.status ≠ .failed → e.Spent final.state rest) where
  toOrderly := h.toOrderly
  fills state offered room hstops := by
    refine Nat.le_antisymm (h.emitted_le state offered room) (Nat.le_of_not_lt fun hlt => ?_)
    refine hstops (.inr ⟨(h.spare state offered room hlt ?_).1, hlt⟩)
    exact Classical.byContradiction fun hne => hstops (.inl (by simp [inflateQuits, hne]))
  idle _ _ _ hnot := absurd trivial hnot
  done state offered room hroom hstops := by
    cases hstatus : (e.call state offered room).status with
    | going =>
      -- A call that brought nothing forward has left room, so that it is like any other stop.
      have hlt : (e.call state offered room).emitted.length < room := by
        obtain hquits | ⟨-, hlt⟩ := hstops
        · simp only [inflateQuits, hstatus] at hquits
          simp_all
        · exact hlt
      obtain ⟨hleaves, hspent⟩ := h.spare state offered room hlt hstatus
      exact ⟨fun _ => hleaves, fun _ => hleaves ▸ hspent⟩
    | ended => exact ⟨nofun, fun _ => h.ended state offered room hstatus⟩
    | failed => exact ⟨nofun, fun hne => absurd rfl hne⟩

section Directions

variable {grow : Nat → Nat} {step : Nat} (hstep : 0 < step)
  (hgrow : ∀ capacity, capacity + step ≤ grow capacity) (capacity : Nat) (state : e.State)
  (input : Bytes)

include hstep hgrow

/-- **Collecting from an engine that compresses ends**, with all input taken and flushed. -/
theorem Deflates.collected {flushed : e.State → Prop} (h : Deflates e flushed step) :
    ∃ output final, Calls e e.Anywhere state input input output final
      ∧ (Pending flushed state input →
        Calls e (Pending flushed) state input input output final)
      ∧ final.status ≠ .failed ∧ flushed final.state
      ∧ e.deflateAll grow capacity state input = some ⟨final.state, output, final.status⟩ := by
  have hsize : (#[] : Array UInt8).size ≤ capacity := Nat.zero_le capacity
  obtain ⟨taken, emitted, final, hcalls, ⟨hrest, hgoes, hflushed⟩, hcollect⟩ :=
    h.settles.ends hstep hgrow h.finite (stands_start state input) hsize
  obtain rfl : taken = input := hcalls.taken_prefix.eq_of_length_le
    (List.drop_eq_nil_iff.mp hrest)
  refine ⟨emitted, final, hcalls.mono fun _ _ _ => trivial, fun hpending => ?_, hgoes, hflushed,
    hcollect⟩
  exact hcalls.mono fun _ _ hor => hor.resolve_right fun hnot => hnot hpending

/-- **Collecting from an engine that decompresses ends**, whatever the input.  Unless the engine has
failed, everything that it gives for the input is collected; if it neither failed nor came to the
end of the stream, it has taken all of the input. -/
theorem Inflates.collected (h : Inflates e) :
    ∃ taken output final, Calls e e.Anywhere state input taken output final
      ∧ (final.status = .going → taken = input)
      ∧ (final.status ≠ .failed → e.Spent final.state (input.drop taken.length))
      ∧ e.inflateAll grow capacity state input = some ⟨final.state, output, final.status⟩ := by
  have hsize : (#[] : Array UInt8).size ≤ capacity := Nat.zero_le capacity
  obtain ⟨taken, emitted, final, hcalls, ⟨hrest, hspent⟩, hcollect⟩ :=
    (h.settles step).ends hstep hgrow h.finite (stands_start state input) hsize
  refine ⟨taken, emitted, final, hcalls.mono fun _ _ _ => trivial, fun hgoing => ?_, hspent,
    hcollect⟩
  exact hcalls.taken_prefix.eq_of_length_le (List.drop_eq_nil_iff.mp (hrest hgoing))

end Directions

end DeflateEcho.Deflate.Engine
