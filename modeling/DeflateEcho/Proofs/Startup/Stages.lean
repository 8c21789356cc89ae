import Mathlib
import DeflateEcho.Proofs.Listener.Resolving
import DeflateEcho.Proofs.Startup

/-!
# Proofs/Startup/Stages — start-up goes through its stages up to the first that fails

Start-up looks at one thing after the other: the arguments, the file that they name, its text, the
address to listen on, the host that it names, a socket, and the slots for sessions.  `inputs` lists
what it looks at, as far as it gets, and **the outcome is that of the first input that is wrong** (`decides_start`).  So two
start-ups that come to the same wrong input end alike, whatever lies behind it, and a machine counts
only with the answers that it was asked for.

Where nothing is wrong up to the settings, those of the command line win over those of the file
(`Config.merge`), and what a file says for a setting that the command line gives does not count.
-/

namespace DeflateEcho

open Settings Listener

/-! ## Settings in force -/

namespace Settings

/-- The settings of the file that a command line names, and defaults if it names none. -/
def Arguments.fileSettings (a : Arguments) (readFile : String → Except FileError Bytes) :
    Except LoadError FileSettings :=
  match a.config with
  | none => .ok {}
  | some path =>
    match readFile path with
    | .error error => .error (.unreadable path error)
    | .ok bytes => FileSettings.ofBytes path bytes

/-- **Two files say the same, as far as it counts**: for each setting that the command line does not
give. -/
structure FileSettings.SameBeside (a : Arguments) (f f' : FileSettings) : Prop where
  listen : a.listen = none → f.server.listen = f'.server.listen
  concurrent : a.concurrent = false → f.server.concurrent = f'.server.concurrent
  maxSessions : a.maxSessions = none → f.server.maxSessions = f'.server.maxSessions
  backlog : f.server.backlog = f'.server.backlog
  level : a.logLevel = none → f.logging.level = f'.logging.level

end Settings

/-- **The command line wins over the file**, and settings that neither gives have the defaults that
stand in the settings of the file.  One of both is enough to serve connections concurrently, and at
least one session and one waiting connection are allowed. -/
structure Config.PrecedesBy (config : Config) (a : Arguments) (f : FileSettings) : Prop where
  listen : config.listen = a.listen.getD f.server.listen
  mode : config.mode = .concurrent ↔ a.concurrent ∨ f.server.concurrent
  maxSessions : config.maxSessions = max 1 (a.maxSessions.getD f.server.maxSessions)
  backlog : config.backlog = max 1 f.server.backlog
  logLevel : config.logLevel = a.logLevel.getD f.logging.level

theorem Config.load_eq {readFile : String → Except FileError Bytes} {arguments : List String}
    {a : Arguments} (ha : Arguments.parse arguments = .ok a) :
    load readFile arguments = (a.fileSettings readFile).map (merge a) := by
  rw [load, ha, Arguments.fileSettings]
  dsimp only
  cases a.config with
  | none => rfl
  | some path => dsimp only; cases readFile path <;> rfl

theorem Config.precedesBy_merge (a : Arguments) (f : FileSettings) :
    (merge a f).PrecedesBy a f where
  listen := rfl
  mode := by
    cases hgiven : a.concurrent <;> cases hfile : f.server.concurrent <;>
      simp [merge, hgiven, hfile]
  maxSessions := rfl
  backlog := rfl
  logLevel := rfl

theorem Config.merge_eq_of_sameBeside {a : Arguments} {f f' : FileSettings}
    (h : f.SameBeside a f') : merge a f = merge a f' := by
  have hgetD : ∀ {α : Type} (given : Option α) (x y : α), (given = none → x = y) →
      given.getD x = given.getD y := fun given x y hsame => by
    cases given with
    | none => exact hsame rfl
    | some v => rfl
  have hmode : (a.concurrent || f.server.concurrent) = (a.concurrent || f'.server.concurrent) := by
    cases hgiven : a.concurrent with
    | true => rfl
    | false => exact h.concurrent hgiven
  simp only [merge, hgetD _ _ _ h.listen, hmode, hgetD _ _ _ h.maxSessions, h.backlog,
    hgetD _ _ _ h.level]

namespace Startup

/-! ## What start-up looks at -/

/-- What a stage is given. -/
inductive Input where
  | arguments (arguments : List String)
  /-- A file that is named, and what comes of reading it. -/
  | file (path : String) (contents : Except FileError Bytes)
  | text (path : String) (bytes : Bytes)
  | listen (given : String)
  /-- The host that is named there, and the addresses that are known for it. -/
  | host (given name : String) (known : Except String (List HostAddress))
  /-- An address, and why no socket can be bound to it, if none can. -/
  | socket (address : SocketAddress) (refusal? : Option String)
  /-- The socket, and why it cannot be taken over, if it cannot. -/
  | adoption (address : SocketAddress) (fault? : Option String)
  | slots (count : Nat)

/-- **What is wrong with an input**, if anything is. -/
def Input.failure? : Input → Option StartupFailure
  | .arguments given =>
    match Arguments.parse given with
    | .error error => some (.load (.arguments error))
    | .ok _ => none
  | .file path (.error error) => some (.load (.unreadable path error))
  | .file _ (.ok _) => none
  | .text path bytes =>
    match FileSettings.ofBytes path bytes with
    | .error error => some (.load error)
    | .ok _ => none
  | .listen given =>
    match Target.parse given with
    | .error error => some (.server error)
    | .ok _ => none
  | .host given _ (.error reason) => some (.server (.resolve given reason))
  | .host given _ (.ok []) => some (.server (.noAddress given))
  | .host _ _ (.ok (_ :: _)) => none
  | .socket address refusal? => refusal?.map fun reason => .server (.bind address reason)
  | .adoption _ fault? => fault?.map fun reason => .server (.stream reason)
  | .slots count => if maxSlots < count then some .tooManySlots else none

/-- What start-up looks at once it has an address, as far as it gets. -/
def socketInputs (machine : Machine) (config : Config) (address : SocketAddress) : List Input :=
  .socket address (machine.refusal? address) ::
    match machine.refusal? address with
    | some _ => []
    | none =>
      .adoption address (machine.fault? address) ::
        match machine.fault? address with
        | some _ => []
        | none => [.slots config.maxSessions]

/-- What it looks at once the settings are in force. -/
def bindInputs (machine : Machine) (config : Config) : List Input :=
  .listen config.listen ::
    match Target.parse config.listen with
    | .error _ => []
    | .ok (.address address) => socketInputs machine config address
    | .ok (.host name port) =>
      .host config.listen name (machine.hosts name) ::
        match machine.hosts name with
        | .ok (host :: _) => socketInputs machine config ⟨host, port⟩
        | _ => []

/-- What it looks at once the arguments are read. -/
def fileInputs (machine : Machine) (a : Arguments) : List Input :=
  match a.config with
  | none => bindInputs machine (Config.merge a {})
  | some path =>
    .file path (machine.file path) ::
      match machine.file path with
      | .error _ => []
      | .ok bytes =>
        .text path bytes ::
          match FileSettings.ofBytes path bytes with
          | .error _ => []
          | .ok f => bindInputs machine (Config.merge a f)

/-- **What start-up looks at**, from the arguments on, as far as it gets. -/
def inputs (machine : Machine) (arguments : List String) : List Input :=
  .arguments arguments ::
    match Arguments.parse arguments with
    | .error _ => []
    | .ok a => fileInputs machine a

/-! ## The first failure decides -/

/-- **The first input that is wrong decides**, and none behind it is looked at. -/
inductive Decides : List Input → Except StartupFailure Ready → Prop where
  | fails {input : Input} {failure : StartupFailure} (h : input.failure? = some failure) :
    Decides [input] (.error failure)
  | ready {input : Input} (h : input.failure? = none) (ready : Ready) : Decides [input] (.ok ready)
  | goesOn {input : Input} {behind : List Input} {result : Except StartupFailure Ready}
    (h : input.failure? = none) (hbehind : Decides behind result) :
    Decides (input :: behind) result

/-- What becomes of binding, as an outcome of start-up. -/
def ofBind (config : Config) : BindOutcome → Except StartupFailure Ready
  | .failed error => .error (.server error)
  | .tooManySlots => .error .tooManySlots
  | .bound bound => .ok ⟨config, bound⟩

theorem decides_socket (machine : Machine) {config : Config} {address : SocketAddress}
    (hresolve : resolve machine.hosts config.listen = .ok address) :
    Decides (socketInputs machine config address)
      (ofBind config (Listener.bind machine.refusal? config machine.hosts machine.fault?)) := by
  unfold socketInputs Listener.bind
  rw [hresolve]
  dsimp only
  cases hrefusal : machine.refusal? address with
  | some reason => exact .fails rfl
  | none =>
    refine .goesOn rfl ?_
    dsimp only
    cases hfault : machine.fault? address with
    | some reason => exact .fails rfl
    | none =>
      refine .goesOn rfl ?_
      by_cases hslots : maxSlots < config.maxSessions
      · simp only [if_pos hslots]
        exact .fails (by rw [Input.failure?, if_pos hslots])
      · simp only [if_neg hslots]
        exact .ready (by rw [Input.failure?, if_neg hslots]) _

theorem decides_bind (machine : Machine) (config : Config) :
    Decides (bindInputs machine config)
      (ofBind config (Listener.bind machine.refusal? config machine.hosts machine.fault?)) := by
  have hfailed : ∀ {error}, resolve machine.hosts config.listen = .error error →
      ofBind config (Listener.bind machine.refusal? config machine.hosts machine.fault?) =
        .error (.server error) := fun {error} hresolve => by
    rw [Listener.bind, hresolve]
    rfl
  unfold bindInputs
  cases htarget : Target.parse config.listen with
  | error error =>
    rw [hfailed (by rw [resolve, htarget])]
    exact .fails (by simp only [Input.failure?, htarget])
  | ok target =>
    refine .goesOn (by simp only [Input.failure?, htarget]) ?_
    cases target with
    | address address => exact decides_socket machine (by rw [resolve, htarget])
    | host name port =>
      dsimp only
      cases hhosts : machine.hosts name with
      | error reason =>
        have hresolve : resolve machine.hosts config.listen =
            .error (.resolve config.listen reason) := by simp only [resolve, htarget, hhosts]
        rw [hfailed hresolve]
        exact .fails rfl
      | ok known =>
        cases known with
        | nil =>
          have hresolve : resolve machine.hosts config.listen =
              .error (.noAddress config.listen) := by simp only [resolve, htarget, hhosts]
          rw [hfailed hresolve]
          exact .fails rfl
        | cons host others =>
          exact .goesOn rfl (decides_socket machine (by simp only [resolve, htarget, hhosts]))

/-- **Start-up is decided by the first input that is wrong.** -/
theorem decides_start (machine : Machine) (arguments : List String) :
    Decides (inputs machine arguments) (start machine arguments) := by
  unfold inputs start
  cases ha : Arguments.parse arguments with
  | error error =>
    have hload : Config.load machine.file arguments = .error (.arguments error) := by
      rw [Config.load, ha]
    rw [hload]
    exact .fails (by simp only [Input.failure?, ha])
  | ok a =>
    refine .goesOn (by simp only [Input.failure?, ha]) ?_
    rw [Config.load_eq ha]
    unfold fileInputs Arguments.fileSettings
    dsimp only
    cases a.config with
    | none => exact decides_bind machine _
    | some path =>
      dsimp only
      cases hfile : machine.file path with
      | error error => exact .fails rfl
      | ok bytes =>
        refine .goesOn rfl ?_
        dsimp only
        cases htext : FileSettings.ofBytes path bytes with
        | error error => exact .fails (by simp only [Input.failure?, htext])
        | ok f => exact .goesOn (by simp only [Input.failure?, htext]) (decides_bind machine _)

section Decided

variable {inputs : List Input} {result : Except StartupFailure Ready} (h : Decides inputs result)
include h

theorem Decides.eq_error_iff (failure : StartupFailure) :
    result = .error failure ↔ ∃ input ∈ inputs, input.failure? = some failure := by
  induction h with
  | fails h => simp [h, eq_comm]
  | ready h => simp [h]
  | goesOn h _ ih => simp [h, ih]

/-- All inputs before the last one looked at are in order. -/
theorem Decides.failure?_dropLast : ∀ input ∈ inputs.dropLast, input.failure? = none := by
  induction h with
  | fails => simp
  | ready => simp
  | @goesOn input behind _ h hbehind ih =>
    have hne : behind ≠ [] := by cases hbehind <;> simp
    rw [List.dropLast_cons_of_ne_nil hne]
    exact List.forall_mem_cons.mpr ⟨h, ih⟩

end Decided

/-! ## What does not count -/

/-- A machine gives the answers that stand among some inputs. -/
structure Answers (machine : Machine) (inputs : List Input) : Prop where
  file : ∀ path contents, .file path contents ∈ inputs → machine.file path = contents
  host : ∀ given name known, .host given name known ∈ inputs → machine.hosts name = known
  socket : ∀ address refusal?, .socket address refusal? ∈ inputs →
    machine.refusal? address = refusal?
  adoption : ∀ address fault?, .adoption address fault? ∈ inputs → machine.fault? address = fault?

theorem Answers.mono {machine : Machine} {inputs some : List Input} (h : Answers machine inputs)
    (hsome : some ⊆ inputs) : Answers machine some where
  file _ _ hasked := h.file _ _ (hsome hasked)
  host _ _ _ hasked := h.host _ _ _ (hsome hasked)
  socket _ _ hasked := h.socket _ _ (hsome hasked)
  adoption _ _ hasked := h.adoption _ _ (hsome hasked)

section Answered

variable {machine machine' : Machine}

theorem socketInputs_subset {config : Config} {address : SocketAddress}
    (hresolve : resolve machine.hosts config.listen = .ok address) :
    socketInputs machine config address ⊆ bindInputs machine config := by
  unfold bindInputs
  unfold resolve at hresolve
  cases htarget : Target.parse config.listen with
  | error error => simp [htarget] at hresolve
  | ok target =>
    cases target with
    | address found =>
      simp only [htarget] at hresolve
      obtain rfl := Except.ok.inj hresolve
      exact List.subset_cons_self _ _
    | host name port =>
      simp only [htarget] at hresolve
      cases hhosts : machine.hosts name with
      | error reason => simp [hhosts] at hresolve
      | ok known =>
        cases known with
        | nil => simp [hhosts] at hresolve
        | cons host others =>
          simp only [hhosts] at hresolve
          obtain rfl := Except.ok.inj hresolve
          simp only [hhosts]
          exact List.Subset.trans (List.subset_cons_self _ _) (List.subset_cons_self _ _)

theorem resolve_eq_of_answers {config : Config} (h : Answers machine' (bindInputs machine config)) :
    resolve machine'.hosts config.listen = resolve machine.hosts config.listen := by
  unfold resolve
  cases htarget : Target.parse config.listen with
  | error error => rfl
  | ok target =>
    cases target with
    | address found => rfl
    | host name port =>
      have hasked : .host config.listen name (machine.hosts name) ∈ bindInputs machine config := by
        simp [bindInputs, htarget]
      simp only [h.host _ _ _ hasked]

theorem bind_eq_of_answers {config : Config} (h : Answers machine' (bindInputs machine config)) :
    Listener.bind machine'.refusal? config machine'.hosts machine'.fault? =
      Listener.bind machine.refusal? config machine.hosts machine.fault? := by
  unfold Listener.bind
  rw [resolve_eq_of_answers h]
  cases hresolve : resolve machine.hosts config.listen with
  | error error => rfl
  | ok address =>
    have hsocket := h.mono (socketInputs_subset hresolve)
    have hrefusal : machine'.refusal? address = machine.refusal? address :=
      hsocket.socket _ _ (by simp [socketInputs])
    dsimp only
    rw [hrefusal]
    cases hnone : machine.refusal? address with
    | some reason => rfl
    | none =>
      have hfault : machine'.fault? address = machine.fault? address :=
        hsocket.adoption _ _ (by simp [socketInputs, hnone])
      dsimp only
      rw [hfault]

theorem fileSettings_eq_of_answers {a : Arguments} (h : Answers machine' (fileInputs machine a)) :
    a.fileSettings machine'.file = a.fileSettings machine.file := by
  unfold Arguments.fileSettings
  cases hconfig : a.config with
  | none => rfl
  | some path =>
    have hasked : .file path (machine.file path) ∈ fileInputs machine a := by
      simp [fileInputs, hconfig]
    simp only [h.file _ _ hasked]

theorem bindInputs_subset {a : Arguments} {f : FileSettings}
    (h : a.fileSettings machine.file = .ok f) :
    bindInputs machine (Config.merge a f) ⊆ fileInputs machine a := by
  unfold Arguments.fileSettings at h
  unfold fileInputs
  cases hconfig : a.config with
  | none =>
    rw [hconfig] at h
    obtain rfl := Except.ok.inj h
    exact List.Subset.refl _
  | some path =>
    rw [hconfig] at h
    cases hfile : machine.file path with
    | error error => simp [hfile] at h
    | ok bytes =>
      simp only [hfile] at h
      simp only [hfile, h]
      exact fun input hinput => List.mem_cons_of_mem _ (List.mem_cons_of_mem _ hinput)

/-- **A machine counts with the answers that it was asked for**, and with nothing else. -/
theorem start_eq_of_answers {arguments : List String}
    (h : Answers machine' (inputs machine arguments)) :
    start machine' arguments = start machine arguments := by
  unfold start
  cases ha : Arguments.parse arguments with
  | error error => simp only [Config.load, ha]
  | ok a =>
    have hfile : Answers machine' (fileInputs machine a) := h.mono fun input hinput => by
      rw [inputs, ha]
      exact List.mem_cons_of_mem _ hinput
    rw [Config.load_eq ha, Config.load_eq ha, fileSettings_eq_of_answers hfile]
    cases hf : a.fileSettings machine.file with
    | error error => rfl
    | ok f => simp only [Except.map, bind_eq_of_answers (hfile.mono (bindInputs_subset hf))]

end Answered

theorem file_notMem_bindInputs (machine : Machine) (config : Config) (path : String)
    (contents : Except FileError Bytes) : .file path contents ∉ bindInputs machine config := by
  have hsocket : ∀ address, .file path contents ∉ socketInputs machine config address := by
    intro address
    unfold socketInputs
    cases machine.refusal? address with
    | some reason => simp
    | none => cases machine.fault? address <;> simp
  unfold bindInputs
  cases Target.parse config.listen with
  | error error => simp
  | ok target =>
    cases target with
    | address address => simpa using hsocket address
    | host name port =>
      dsimp only
      rcases machine.hosts name with reason | _ | ⟨host, others⟩
      · simp
      · simp
      · simpa using hsocket ⟨host, port⟩

theorem file_notMem_inputs {machine : Machine} {arguments : List String} {a : Arguments}
    (ha : Arguments.parse arguments = .ok a) (hconfig : a.config = none) (path : String)
    (contents : Except FileError Bytes) : .file path contents ∉ inputs machine arguments := by
  simpa only [inputs, ha, fileInputs, hconfig, List.mem_cons, reduceCtorEq, false_or] using
    file_notMem_bindInputs machine _ path contents

/-! ## The exit code -/

/-- The exit code of a start-up that fails: help and the version are no errors, other problems with
the arguments are told from all that is found later. -/
def failureCode (arguments : List String) : Nat :=
  match Arguments.parse arguments with
  | .error .help => 0
  | .error .version => 0
  | .error _ => 2
  | .ok _ => 1

theorem exitCode_of_fileSettings {a : Arguments} {readFile : String → Except FileError Bytes}
    {error : LoadError} (h : a.fileSettings readFile = .error error) :
    (StartupFailure.load error).exitCode = 1 := by
  have hbytes : ∀ {path bytes error}, FileSettings.ofBytes path bytes = .error error →
      (StartupFailure.load error).exitCode = 1 := fun {path bytes error} h => by
    unfold FileSettings.ofBytes at h
    split at h
    · cases h
      rfl
    · split at h
      · cases h
        rfl
      · next entries _ =>
        cases htable : FileSettings.ofTable entries with
        | error e =>
          rw [htable] at h
          cases h
          rfl
        | ok f =>
          rw [htable] at h
          cases h
  unfold Arguments.fileSettings at h
  split at h
  · cases h
  · split at h
    · cases h
      rfl
    · exact hbytes h

theorem exitCode_of_start {machine : Machine} {arguments : List String} {failure : StartupFailure}
    (h : start machine arguments = .error failure)
    (hslots : ∀ config, Config.load machine.file arguments = .ok config →
      config.maxSessions ≤ maxSlots) : failure.exitCode = failureCode arguments := by
  unfold failureCode
  cases ha : Arguments.parse arguments with
  | error error =>
    simp only [start, Config.load, ha] at h
    cases h
    cases error <;> rfl
  | ok a =>
    have hload : Config.load machine.file arguments =
        (a.fileSettings machine.file).map (Config.merge a) := Config.load_eq ha
    dsimp only
    cases hf : a.fileSettings machine.file with
    | error error =>
      rw [hf] at hload
      simp only [start, hload, Except.map] at h
      cases h
      exact exitCode_of_fileSettings hf
    | ok f =>
      rw [hf] at hload
      simp only [start, hload, Except.map] at h
      cases hbind : Listener.bind machine.refusal? (Config.merge a f) machine.hosts
        machine.fault? with
      | failed error =>
        simp only [hbind] at h
        cases h
        rfl
      | tooManySlots =>
        obtain ⟨_, -, -, -, hmany⟩ := Listener.bind_eq_tooManySlots_iff.mp hbind
        exact absurd hmany (Nat.not_lt.mpr (hslots _ hload))
      | bound bound => simp [hbind] at h

/-! ## All of start-up -/

/-- Where the settings are in force, the address to listen on is looked for, and a server is that of
the address that is found. -/
theorem resolves_of_start {machine : Machine} {arguments : List String} {config : Config}
    (h : Config.load machine.file arguments = .ok config) :
    ∃ result, Resolves machine.hosts config.listen result ∧
      (∀ error, result = .error error → start machine arguments = .error (.server error)) ∧
      ∀ ready, start machine arguments = .ok ready → ready.config = config ∧
        result = .ok ready.bound.address ∧ ready.bound.mode = config.mode ∧
        ready.bound.slots = config.maxSessions ∧ ready.bound.slots ≤ maxSlots := by
  refine ⟨_, resolves_iff.mpr rfl, fun error herror => ?_, fun ready hready => ?_⟩
  · simp only [start, h, Listener.bind, herror]
  · simp only [start, h, Listener.bind] at hready
    cases hresolve : resolve machine.hosts config.listen with
    | error error => simp [hresolve] at hready
    | ok address =>
      cases hrefusal : machine.refusal? address with
      | some reason => simp [hresolve, hrefusal] at hready
      | none =>
        cases hfault : machine.fault? address with
        | some reason => simp [hresolve, hrefusal, hfault] at hready
        | none =>
          by_cases hslots : maxSlots < config.maxSessions
          · simp [hresolve, hrefusal, hfault, hslots] at hready
          · simp only [hresolve, hrefusal, hfault, if_neg hslots] at hready
            obtain rfl := Except.ok.inj hready
            exact ⟨rfl, rfl, rfl, rfl, Nat.not_lt.mp hslots⟩

/-- **Start-up is decided by the first stage that fails, and otherwise by precedence.**

What is wrong with the first wrong input is the outcome, in all start-ups that come to it, and a
machine counts with the answers that it was asked for, which a file is only if the arguments name
it.  The settings in force are those of the command line, of the file and the defaults, in this
order, and what a file says for a setting that the command line gives makes no difference.  A server
listens on the address that its setting stands for on this machine, and where this is none, that is
the outcome. -/
theorem start_by_stages (machine : Machine) (arguments : List String) :
    (∀ failure, start machine arguments = .error failure ↔
      ∃ input ∈ inputs machine arguments, input.failure? = some failure) ∧
    (∀ input ∈ (inputs machine arguments).dropLast, input.failure? = none) ∧
    (∀ failure, start machine arguments = .error failure →
      (∀ config, Config.load machine.file arguments = .ok config →
        config.maxSessions ≤ maxSlots) → failure.exitCode = failureCode arguments) ∧
    (∀ machine' arguments', ∀ input ∈ inputs machine arguments, input ∈ inputs machine' arguments' →
      input.failure? ≠ none → start machine' arguments' = start machine arguments) ∧
    (∀ machine', Answers machine' (inputs machine arguments) →
      start machine' arguments = start machine arguments) ∧
    (∀ a, Arguments.parse arguments = .ok a →
      (a.config = none → ∀ path contents, .file path contents ∉ inputs machine arguments) ∧
      ∀ f, a.fileSettings machine.file = .ok f →
        Config.load machine.file arguments = .ok (Config.merge a f) ∧
        (Config.merge a f).PrecedesBy a f ∧
        ∀ machine' f', a.fileSettings machine'.file = .ok f' → f.SameBeside a f' →
          Config.load machine'.file arguments = .ok (Config.merge a f) ∧
          (Answers machine' (bindInputs machine (Config.merge a f)) →
            start machine' arguments = start machine arguments)) ∧
    (∀ config, Config.load machine.file arguments = .ok config →
      ∃ result, Resolves machine.hosts config.listen result ∧
        (∀ error, result = .error error → start machine arguments = .error (.server error)) ∧
        ∀ ready, start machine arguments = .ok ready → ready.config = config ∧
          result = .ok ready.bound.address ∧ ready.bound.mode = config.mode ∧
          ready.bound.slots = config.maxSessions ∧ ready.bound.slots ≤ maxSlots) := by
  have hdecides := decides_start machine arguments
  refine ⟨hdecides.eq_error_iff, hdecides.failure?_dropLast, fun _ => exitCode_of_start,
    fun machine' arguments' input hinput hinput' hwrong => ?_, fun _ => start_eq_of_answers,
    fun a ha => ⟨file_notMem_inputs ha, fun f hf => ?_⟩, fun _ => resolves_of_start⟩
  · obtain ⟨failure, hfailure⟩ := Option.ne_none_iff_exists'.mp hwrong
    rw [((decides_start machine' arguments').eq_error_iff failure).mpr ⟨input, hinput', hfailure⟩,
      (hdecides.eq_error_iff failure).mpr ⟨input, hinput, hfailure⟩]
  · have hload : Config.load machine.file arguments = .ok (Config.merge a f) := by
      rw [Config.load_eq ha, hf]
      rfl
    refine ⟨hload, Config.precedesBy_merge a f, fun machine' f' hf' hsame => ?_⟩
    have hload' : Config.load machine'.file arguments = .ok (Config.merge a f) := by
      rw [Config.load_eq ha, hf', Config.merge_eq_of_sameBeside hsame]
      rfl
    exact ⟨hload', fun hanswers => by
      simp only [start, hload, hload', bind_eq_of_answers hanswers]⟩

/-- Two files that differ in the address to listen on, which the command line gives, and where a
slot more than none is asked for. -/
theorem start_by_stages_overridden :
    let machine (text : String) : Machine := { file := fun _ => .ok text.toUTF8.toList }
    let arguments := ["-l", "127.0.0.1:0", "-c", "echo.toml"]
    let text := "server.listen='a'\nserver.max_sessions=0"
    let text' := "server.listen='b'\nserver.max_sessions=0"
    start (machine text) arguments =
      .ok ⟨{ Config.default with listen := "127.0.0.1:0", maxSessions := 1 },
        ⟨⟨.v4 127 0 0 1, 0⟩, .serial, 1⟩⟩ ∧
    start (machine text') arguments = start (machine text) arguments := by
  intro machine arguments text text'
  have hok : ∀ {x : Except LoadError FileSettings} {f : FileSettings}, x.toOption = some f →
      x = .ok f := fun {x f} h => by
    cases x with
    | error error => cases h
    | ok g => exact congrArg Except.ok (Option.some.inj h)
  have ha : Arguments.parse arguments =
      .ok { config := some "echo.toml", listen := some "127.0.0.1:0" } := rfl
  have hf : Arguments.fileSettings { config := some "echo.toml", listen := some "127.0.0.1:0" }
      (machine text).file = .ok { server := { listen := "a", maxSessions := 0 } } :=
    hok (by decide +kernel)
  have hf' : Arguments.fileSettings { config := some "echo.toml", listen := some "127.0.0.1:0" }
      (machine text').file = .ok { server := { listen := "b", maxSessions := 0 } } :=
    hok (by decide +kernel)
  refine ⟨?_, ?_⟩
  · rw [start, Config.load_eq ha, hf]
    rfl
  · have hasked : bindInputs (machine text) (Config.merge
        { config := some "echo.toml", listen := some "127.0.0.1:0" }
        { server := { listen := "a", maxSessions := 0 } }) =
          [.listen "127.0.0.1:0", .socket ⟨.v4 127 0 0 1, 0⟩ none,
            .adoption ⟨.v4 127 0 0 1, 0⟩ none, .slots 1] := rfl
    have hanswers : Answers (machine text') (bindInputs (machine text) (Config.merge
        { config := some "echo.toml", listen := some "127.0.0.1:0" }
        { server := { listen := "a", maxSessions := 0 } })) := by
      rw [hasked]
      constructor <;> simp [machine, SocketAddress.refusal?, HostAddress.isBindable]
    exact ((((start_by_stages (machine text) arguments).2.2.2.2.2.1 _ ha).2 _ hf).2.2 _ _ hf'
      ⟨nofun, fun _ => rfl, fun _ => rfl, rfl, fun _ => rfl⟩).2 hanswers

end Startup

end DeflateEcho
