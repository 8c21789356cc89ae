import DeflateEcho.Listener.Service
import DeflateEcho.Proofs.Echo.Conversation
import DeflateEcho.Proofs.Listener.Order

/-!
# Proofs/Listener/Serving — everything that can happen to a service, and what becomes of connections

A service is an accept loop with conversations beside it.  `Step` lists what can happen to it, as the
`Step` of the loop does for the loop.  The loop does what it would do without the conversations
(`run?_loop`), and each conversation is what the reads of its connection make of a new one
(`Serving.run`), in whatever order all this happens.
-/

namespace DeflateEcho.Listener

open Echo (Conversation Ending Read Sink)

/-! ## Views of what happens -/

namespace ServiceAction

/-- The loop's part in an action. -/
def loop? : ServiceAction → Option Action
  | loop action => some action
  | read _ _ => none

/-- What an action reads from a connection. -/
def readFrom? (connection : ConnectionId) : ServiceAction → Option Read
  | loop _ => none
  | read other r => if other = connection then some r else none

end ServiceAction

/-- What the loop does among these actions. -/
def loopActions (actions : List ServiceAction) : List Action :=
  actions.filterMap ServiceAction.loop?

/-- What the reads of a connection deliver among these actions. -/
def delivered (connection : ConnectionId) (actions : List ServiceAction) : List Read :=
  actions.filterMap (ServiceAction.readFrom? connection)

namespace Service

variable {sinks : ConnectionId → Sink}

/-! ## Steps -/

/-- **What can happen to a service**, and how it then stands. -/
inductive Step (s : Service sinks) : ServiceAction → Service sinks → Prop
  | accepts {connection : ConnectionId} {waiting : List ConnectionId} {loop : Loop}
    (hwaiting : s.loop.waiting = connection :: waiting) (hloop : s.loop.Step .accept loop) :
    Step s (.loop .accept) ({ s with loop }.put connection {})
  | ends {connection : ConnectionId} {ending : Ending} {loop : Loop}
    (hended : s.ending? connection = some ending)
    (hloop : s.loop.Step (.sessionEnds connection ending) loop) :
    Step s (.loop (.sessionEnds connection ending)) { s with loop }
  | moves {action : Action} {loop : Loop} (haccept : action ≠ .accept)
    (hends : action.ends? = none) (hloop : s.loop.Step action loop) :
    Step s (.loop action) { s with loop }
  | reads {connection : ConnectionId} {read : Read} {c : Conversation (sinks connection)}
    (hruns : connection ∈ s.loop.sessions) (hgoes : s.ending? connection = none)
    (hfits : read.FitsBuffer) (hc : s.conversation? connection = some c) :
    Step s (.read connection read) (s.put connection (c.advance read))

variable {s s' : Service sinks} {a : ServiceAction} {actions : List ServiceAction}

/-- What neither accepts a connection nor ends a session is up to the loop. -/
theorem step?_loop {action : Action} (haccept : action ≠ .accept) (hends : action.ends? = none) :
    s.step? (.loop action) = (s.loop.step? action).map fun loop => { s with loop } := by
  cases action with
  | accept => exact absurd rfl haccept
  | sessionEnds => cases hends
  | _ => rfl

theorem step_of_step? (h : s.step? a = some s') : s.Step a s' := by
  cases a with
  | read connection read =>
    rw [step?] at h
    split at h
    · next hguard =>
      obtain ⟨hruns, hgoes, hfits⟩ := hguard
      obtain ⟨c, hc, rfl⟩ := Option.map_eq_some_iff.mp h
      exact .reads hruns hgoes hfits hc
    · cases h
  | loop action =>
    cases action with
    | sessionEnds connection ending =>
      rw [step?] at h
      split at h
      · next hended =>
        obtain ⟨loop, hloop, rfl⟩ := Option.map_eq_some_iff.mp h
        exact .ends hended (Loop.step?_eq_some_iff.mp hloop)
      · cases h
    | accept =>
      rw [step?] at h
      split at h
      · cases h
      · next hwaiting =>
        obtain ⟨loop, hloop, rfl⟩ := Option.map_eq_some_iff.mp h
        exact .accepts hwaiting (Loop.step?_eq_some_iff.mp hloop)
    | _ =>
      have hmap := (step?_loop (by nofun) rfl).symm.trans h
      obtain ⟨loop, hloop, rfl⟩ := Option.map_eq_some_iff.mp hmap
      exact .moves nofun rfl (Loop.step?_eq_some_iff.mp hloop)

theorem Step.step? (h : s.Step a s') : s.step? a = some s' := by
  cases h with
  | accepts hwaiting hloop => simp [Service.step?, hwaiting, hloop.step?]
  | ends hended hloop => simp [Service.step?, hended, hloop.step?]
  | moves haccept hends hloop => simp [step?_loop haccept hends, hloop.step?]
  | reads hruns hgoes hfits hc => simp [Service.step?, hruns, hgoes, hfits, hc]

/-- **These are the steps of a service.** -/
theorem step?_eq_some_iff : s.step? a = some s' ↔ s.Step a s' :=
  ⟨step_of_step?, Step.step?⟩

theorem run?_nil : s.run? [] = some s' ↔ s = s' := by
  rw [run?, List.foldlM_nil]
  exact Option.some_inj

/-- A run is a step and the run from there. -/
theorem run?_cons :
    s.run? (a :: actions) = some s' ↔ ∃ m, s.Step a m ∧ m.run? actions = some s' := by
  rw [run?, List.foldlM_cons]
  simp only [← step?_eq_some_iff]
  exact Option.bind_eq_some_iff

/-! ## The loop on its own -/

/-- What the conversations do leaves the loop as it is. -/
theorem Step.loop (h : s.Step a s') :
    (∃ action, a.loop? = some action ∧ s.loop.Step action s'.loop)
      ∨ a.loop? = none ∧ s'.loop = s.loop := by
  cases h with
  | accepts _ hloop => exact .inl ⟨_, rfl, hloop⟩
  | ends _ hloop => exact .inl ⟨_, rfl, hloop⟩
  | moves _ _ hloop => exact .inl ⟨_, rfl, hloop⟩
  | reads => exact .inr ⟨rfl, rfl⟩

/-- **The loop does what it would do on its own.** -/
theorem run?_loop (h : s.run? actions = some s') :
    s.loop.run? (loopActions actions) = some s'.loop := by
  induction actions generalizing s with
  | nil => exact Loop.run?_nil.mpr (congrArg Service.loop (run?_nil.mp h))
  | cons a actions ih =>
    obtain ⟨m, hm, hrest⟩ := run?_cons.mp h
    rw [loopActions, List.filterMap_cons]
    obtain ⟨action, ha, hloop⟩ | ⟨ha, hloop⟩ := hm.loop
    · rw [ha]
      exact Loop.run?_cons.mpr ⟨m.loop, hloop, ih hrest⟩
    · rw [ha, ← hloop]
      exact ih hrest

/-! ## Each conversation on its own -/

theorem put_self (s : Service sinks) (connection : ConnectionId)
    (c : Conversation (sinks connection)) :
    (s.put connection c).conversation? connection = some c := by
  simp [put]

/-- **What is put for one connection does not show in another.** -/
theorem put_other (s : Service sinks) {connection other : ConnectionId} (h : other ≠ connection)
    (c : Conversation (sinks connection)) :
    (s.put connection c).conversation? other = s.conversation? other := by
  simp [put, h]

/-- **A service that has read this from its connections**: each that was accepted has the
conversation that its reads make of a new one, and runs until that has ended. -/
structure Serving (s : Service sinks) (reads : ConnectionId → List Read) : Prop where
  numbered : s.loop.Numbered
  served : ∀ connection < s.loop.accepted,
    s.conversation? connection = some (.ofReads (sinks connection) (reads connection))
  unserved : ∀ connection, s.loop.accepted ≤ connection →
    s.conversation? connection = none ∧ reads connection = []
  runs : ∀ connection < s.loop.accepted, s.ending? connection = none → connection ∈ s.loop.sessions
  fits : ∀ connection, ∀ read ∈ reads connection, read.FitsBuffer

theorem serving_start (mode : ServingMode) (slots : Nat) (requested : Bool) :
    ({ loop := .start mode slots requested } : Service sinks).Serving fun _ => [] where
  numbered := Loop.numbered_start mode slots requested
  served connection h := absurd h (Nat.not_lt_zero connection)
  unserved _ _ := ⟨rfl, rfl⟩
  runs connection h := absurd h (Nat.not_lt_zero connection)
  fits _ _ h := absurd h List.not_mem_nil

variable {reads : ConnectionId → List Read}

/-- A connection that was not accepted has no conversation that could have ended. -/
theorem Serving.lt_accepted (hs : s.Serving reads) {connection : ConnectionId}
    (h : s.conversation? connection ≠ none) : connection < s.loop.accepted :=
  Nat.lt_of_not_le fun hle => h (hs.unserved connection hle).1

theorem ending?_congr {connection : ConnectionId}
    (h : s'.conversation? connection = s.conversation? connection) :
    s'.ending? connection = s.ending? connection := by
  rw [ending?, ending?, h]

/-- A step of the loop that accepts nothing leaves the conversations as they are. -/
theorem Serving.stays (hs : s.Serving reads) {action : Action} {loop : Loop}
    (hloop : s.loop.Step action loop) (haccept : action ≠ .accept)
    (hends : ∀ connection ∈ action.ends?, s.ending? connection ≠ none) :
    ({ s with loop } : Service sinks).Serving reads := by
  have haccepts : s.loop.accepts? action = none := by
    cases action with
    | accept => exact absurd rfl haccept
    | _ => rfl
  have haccepted : loop.accepted = s.loop.accepted := by
    obtain ⟨hle, hnone⟩ := hs.numbered.accepts hloop
    have hlength := congrArg List.length hnone
    rw [haccepts, List.length_range', Option.toList_none, List.length_nil] at hlength
    omega
  refine ⟨hs.numbered.step hloop, ?_, ?_, fun connection hlt hgoes => ?_, hs.fits⟩
  · rw [haccepted]
    exact hs.served
  · rw [haccepted]
    exact hs.unserved
  · rw [haccepted] at hlt
    have hmem := hloop.sessions.subset (List.mem_append_left _ (hs.runs connection hlt hgoes))
    obtain hended | hmem := List.mem_append.mp hmem
    · exact absurd hgoes (hends connection (Option.mem_toList.mp hended))
    · exact hmem

/-- The connection that is accepted gets a new conversation. -/
theorem Serving.accepts (hs : s.Serving reads) {connection : ConnectionId}
    {waiting : List ConnectionId} {loop : Loop} (hwaiting : s.loop.waiting = connection :: waiting)
    (hloop : s.loop.Step .accept loop) : ({ s with loop }.put connection {}).Serving reads := by
  have haccepted : loop.accepted = s.loop.accepted + 1 := by
    cases hloop with
    | begins hpos hwaiting => exact hs.numbered.accepted_eq_succ hwaiting rfl rfl
    | serves hpos hwaiting => exact hs.numbered.accepted_eq_succ hwaiting rfl rfl
  have hsessions := hloop.sessions
  rw [Loop.accepts?, hwaiting] at hsessions
  -- the connection is the first that was not accepted, so nothing was read from it before
  obtain ⟨rfl, -⟩ := hs.numbered.head hwaiting
  have hother {other : ConnectionId} (hne : other ≠ s.loop.accepted) :
      ({ s with loop }.put s.loop.accepted {}).conversation? other = s.conversation? other :=
    put_other _ hne _
  have hearlier {other : ConnectionId} (hlt : other < loop.accepted)
      (hne : other ≠ s.loop.accepted) : other < s.loop.accepted :=
    Nat.lt_of_le_of_ne (Nat.le_of_lt_succ (Nat.lt_of_lt_of_eq hlt haccepted)) hne
  refine ⟨hs.numbered.step hloop, fun other hlt => ?_, fun other hle => ?_, fun other hlt hgoes => ?_,
    hs.fits⟩
  · by_cases hsame : other = s.loop.accepted
    · subst hsame
      rw [put_self, (hs.unserved _ (Nat.le_refl _)).2]
      rfl
    · rw [hother hsame]
      exact hs.served other (hearlier hlt hsame)
  · have hlater : s.loop.accepted < other := Nat.lt_of_succ_le (haccepted.symm.le.trans hle)
    rw [hother hlater.ne']
    exact hs.unserved other hlater.le
  · refine hsessions.subset ?_
    by_cases hsame : other = s.loop.accepted
    · simp [hsame]
    · rw [ending?_congr (hother hsame)] at hgoes
      exact List.mem_append_left _ (hs.runs other (hearlier hlt hsame) hgoes)

/-- A read goes into the conversation of its connection. -/
theorem Serving.read (hs : s.Serving reads) {connection : ConnectionId} {read : Read}
    {c : Conversation (sinks connection)} (hruns : connection ∈ s.loop.sessions)
    (hfits : read.FitsBuffer) (hc : s.conversation? connection = some c) :
    (s.put connection (c.advance read)).Serving fun other =>
      reads other ++ (ServiceAction.readFrom? other (.read connection read)).toList := by
  have hread {other : ConnectionId} (hne : other ≠ connection) :
      reads other ++ (ServiceAction.readFrom? other (.read connection read)).toList
        = reads other := by
    rw [ServiceAction.readFrom?, if_neg hne.symm]
    exact List.append_nil _
  have hlt := hs.numbered.lt_accepted connection hruns
  refine ⟨hs.numbered, fun other hother => ?_, fun other hother => ?_, fun other hother hgoes => ?_,
    fun other r hr => ?_⟩
  · by_cases hsame : other = connection
    · subst hsame
      obtain rfl := Option.some.inj (hc.symm.trans (hs.served other hlt))
      rw [put_self, ServiceAction.readFrom?, if_pos rfl, Conversation.ofReads_append]
      rfl
    · rw [put_other s hsame, hread hsame]
      exact hs.served other hother
  · have hne : other ≠ connection := (Nat.lt_of_lt_of_le hlt hother).ne'
    rw [put_other s hne, hread hne]
    exact hs.unserved other hother
  · by_cases hsame : other = connection
    · rw [hsame]
      exact hruns
    · rw [ending?_congr (put_other s hsame _)] at hgoes
      exact hs.runs other hother hgoes
  · obtain hr | hr := List.mem_append.mp hr
    · exact hs.fits other r hr
    · rw [ServiceAction.readFrom?] at hr
      split at hr
      · rw [Option.toList_some, List.mem_singleton] at hr
        exact hr ▸ hfits
      · cases hr

theorem Serving.step (hs : s.Serving reads) (h : s.Step a s') :
    s'.Serving fun connection => reads connection ++ (a.readFrom? connection).toList := by
  cases h with
  | accepts hwaiting hloop => simpa [ServiceAction.readFrom?] using hs.accepts hwaiting hloop
  | ends hended hloop =>
    have hstays := hs.stays hloop nofun fun connection hmem => by
      obtain rfl := Option.some.inj hmem
      rw [hended]
      exact Option.some_ne_none _
    simpa [ServiceAction.readFrom?] using hstays
  | moves haccept hends hloop =>
    have hstays := hs.stays hloop haccept fun connection hmem => by
      rw [hends] at hmem
      cases hmem
    simpa [ServiceAction.readFrom?] using hstays
  | reads hruns _ hfits hc => exact hs.read hruns hfits hc

theorem delivered_cons (connection : ConnectionId) :
    delivered connection (a :: actions)
      = (a.readFrom? connection).toList ++ delivered connection actions := by
  rw [delivered, List.filterMap_cons]
  cases a.readFrom? connection <;> rfl

/-- **Each conversation is what the reads of its connection make of a new one**, wherever a run
gets. -/
theorem Serving.run (hs : s.Serving reads) (h : s.run? actions = some s') :
    s'.Serving fun connection => reads connection ++ delivered connection actions := by
  -- what was read so far grows by what each step reads
  induction actions generalizing s reads with
  | nil =>
    obtain rfl := run?_nil.mp h
    simpa [delivered] using hs
  | cons a actions ih =>
    obtain ⟨m, hm, hrest⟩ := run?_cons.mp h
    simp only [delivered_cons, ← List.append_assoc]
    exact ih (hs.step hm) hrest

/-- A conversation that has ended stays as it is. -/
theorem Serving.ending?_step (hs : s.Serving reads) (h : s.Step a s') {connection : ConnectionId}
    {ending : Ending} (hended : s.ending? connection = some ending) :
    s'.ending? connection = some ending := by
  have hexists : s.conversation? connection ≠ none := by
    intro hnone
    rw [ending?, hnone] at hended
    cases hended
  cases h with
  | @accepts accepted waiting loop hwaiting hloop =>
    have hlt := hs.lt_accepted hexists
    rw [← (hs.numbered.head hwaiting).1] at hlt
    rw [ending?_congr (put_other _ hlt.ne _)]
    exact hended
  | ends => exact hended
  | moves => exact hended
  | reads _ hgoes _ _ =>
    rw [ending?_congr (put_other _ ?_ _)]
    · exact hended
    · rintro rfl
      cases hgoes.symm.trans hended

/-- **A session ends as its conversation did.** -/
theorem Serving.ends_as (hs : s.Serving reads) (h : s.run? actions = some s')
    {connection : ConnectionId} {ending : Ending}
    (hends : .loop (.sessionEnds connection ending) ∈ actions
      ∨ s.ending? connection = some ending) :
    s'.ending? connection = some ending := by
  induction actions generalizing s reads with
  | nil =>
    obtain rfl := run?_nil.mp h
    exact hends.resolve_left List.not_mem_nil
  | cons a actions ih =>
    obtain ⟨m, hm, hrest⟩ := run?_cons.mp h
    refine ih (hs.step hm) hrest ?_
    rcases hends with hmem | hended
    · obtain rfl | hmem := List.mem_cons.mp hmem
      · cases hm with
        | ends hended => exact .inr hended
        | moves _ hends => cases hends
      · exact .inl hmem
    · exact .inr (hs.ending?_step hm hended)

end Service

end DeflateEcho.Listener
