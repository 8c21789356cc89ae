import Mathlib
import DeflateEcho.Proofs.Settings.Sessions
import DeflateEcho.Startup

/-!
# Proofs/Startup — when the program ends before it listens

The settings in force may ask for up to `2 ^ 64 - 1` sessions, and the limiter counts up to
`maxSlots` slots, which is less.  Everything else that can go wrong is found before the slots are
set up and is reported as an error of its own; so **the program ends with exit code 101 exactly
where it gets as far as the slots and these are too many** (`overflow_iff`).
-/

namespace DeflateEcho

open Settings Listener

theorem StartupFailure.exitCode_eq_101_iff {failure : StartupFailure} :
    failure.exitCode = 101 ↔ failure = .tooManySlots := by
  cases failure with
  | load error =>
    cases error with
    | arguments error => cases error <;> simp [exitCode, ArgumentError.exitCode]
    | _ => simp [exitCode]
  | _ => simp [exitCode]

theorem Listener.bind_eq_tooManySlots_iff {refusal? : SocketAddress → Option String}
    {config : Config} {hosts : HostTable} {fault? : SocketAddress → Option String} :
    bind refusal? config hosts fault? = .tooManySlots ↔
      ∃ address, resolve hosts config.listen = .ok address ∧ refusal? address = none ∧
        fault? address = none ∧ maxSlots < config.maxSessions := by
  unfold Listener.bind
  cases resolve hosts config.listen with
  | error error => simp
  | ok address =>
    cases hrefusal : refusal? address with
    | some reason => simp [hrefusal]
    | none =>
      cases hfault : fault? address with
      | some reason => simp [hrefusal, hfault]
      | none => by_cases hslots : maxSlots < config.maxSessions <;> simp [hrefusal, hfault, hslots]

namespace Startup

variable (machine : Machine) (arguments : List String)

theorem start_eq_tooManySlots_iff :
    start machine arguments = .error .tooManySlots ↔
      ∃ config, Config.load machine.file arguments = .ok config ∧
        Listener.bind machine.refusal? config machine.hosts machine.fault? = .tooManySlots := by
  unfold start
  cases Config.load machine.file arguments with
  | error error => simp
  | ok config =>
    cases hbind : Listener.bind machine.refusal? config machine.hosts machine.fault? <;>
      simp [hbind]

/-- **The settings in force allow from one session up to `2 ^ 64 - 1`, and the program ends with
exit code 101 if and only if there is a socket for the address to listen on and the sessions are more
than the limiter can count**, whichever hosts the machine knows. -/
theorem overflow_iff :
    (∀ config, Config.load machine.file arguments = .ok config →
      1 ≤ config.maxSessions ∧ config.maxSessions < 2 ^ 64) ∧
    ((∃ failure, start machine arguments = .error failure ∧ failure.exitCode = 101) ↔
      ∃ config address, Config.load machine.file arguments = .ok config ∧
        resolve machine.hosts config.listen = .ok address ∧ machine.refusal? address = none ∧
        machine.fault? address = none ∧ maxSlots < config.maxSessions) := by
  refine ⟨SatisfiesM_Except_eq.mp (Config.maxSessions_of_load _ _), ?_⟩
  calc (∃ failure, start machine arguments = .error failure ∧ failure.exitCode = 101)
      ↔ start machine arguments = .error .tooManySlots := by
        simp [StartupFailure.exitCode_eq_101_iff]
    _ ↔ ∃ config, Config.load machine.file arguments = .ok config ∧
          Listener.bind machine.refusal? config machine.hosts machine.fault? = .tooManySlots :=
        start_eq_tooManySlots_iff machine arguments
    _ ↔ _ := by simp [Listener.bind_eq_tooManySlots_iff]

/-- Settings can be in force that ask for one slot more than the limiter can count, and with them the
program ends before it listens. -/
theorem overflow_past_limit :
    let machine : Machine := { file := fun _ => .error .notFound }
    let arguments := ["-l", "127.0.0.1:0", "-m", "2305843009213693952"]
    let config : Config :=
      { Config.default with listen := "127.0.0.1:0", maxSessions := 2305843009213693952 }
    Config.load machine.file arguments = .ok config ∧ config.maxSessions = maxSlots + 1 ∧
      Listener.bind machine.refusal? config machine.hosts machine.fault? = .tooManySlots ∧
      start machine arguments = .error .tooManySlots ∧
      StartupFailure.tooManySlots.exitCode = 101 :=
  ⟨rfl, rfl, rfl, rfl, rfl⟩

end Startup

end DeflateEcho
