import EfiSshServer.Scenario
import EfiSshServer.ShimSteps

/-!
# Scenarios of the console shim

The scripts of `Scenario.lean` for the shim: a client logs in and starts a shell, the
shim is installed, and the Shell makes its calls.
-/

namespace EfiSshServer

open StateProgram

variable {E : Env} {fw : Firmware Server} {host : Server} {c c' : Console Server}

/-- Up to a shell that waits for its first key. -/
def clientShell (user pass : String) : Bytes :=
  clientLogin user pass ++ sealedFrame (channelRequest "shell")

/-- A firmware whose clock stands still and whose local keyboard is silent. -/
def quietFirmware : Firmware Server where
  ticks _ := 0
  hasConIn := true
  hasConOut := true
  hasWaitForKey := true
  localKey _ := (efiNotReady, ⟨0, 0⟩)
  localReady _ := false

/-- More rounds than the scenarios need. -/
abbrev scenarioRounds : ℕ := 8

/-- The calls one after the other. -/
def runConsoleCalls (E : Env) : List ConsoleCall → Console Server → Except Stop (Console Server)
  | [], c => .ok c
  | call :: calls, c =>
      match runConsole (serverSsh E) quietFirmware scenarioRounds call c with
      | .ok (_, c') => runConsoleCalls E calls c'
      | .error stop => .error stop

theorem runConsoleCalls_runs {c₀ : Console Server} {calls : List ConsoleCall}
    (h : ConsoleRuns (serverSsh E) quietFirmware c₀ c)
    (hrun : runConsoleCalls E calls c = .ok c') :
    ConsoleRuns (serverSsh E) quietFirmware c₀ c' := by
  induction calls generalizing c with
  | nil =>
      cases hrun
      exact h
  | cons call calls ih =>
      rw [runConsoleCalls] at hrun
      split at hrun
      · next u hcall => exact ih (h.call scenarioRounds call hcall) hrun
      · cases hrun

/-- The shim on this connection after the calls. -/
def consoleScenario (E : Env) (calls : List ConsoleCall) (host : Server) :
    Except Stop (Console Server) := do
  let (_, c) ← shimInstall (serverSsh E) quietFirmware scenarioRounds (zeroConsole host)
  runConsoleCalls E calls c

theorem consoleScenario_reachable {calls : List ConsoleCall}
    (h : consoleScenario E calls host = .ok c) :
    ShimReachable (serverSsh E) quietFirmware host c := by
  unfold consoleScenario at h
  cases hinstall : shimInstall (serverSsh E) quietFirmware scenarioRounds (zeroConsole host) with
  | error stop =>
      rw [hinstall] at h
      cases h
  | ok out =>
      obtain ⟨status, c₀⟩ := out
      have hstatus : wp (shimInstall (serverSsh E) quietFirmware scenarioRounds)
          (fun status _ => status = efiSuccess) anyStop (zeroConsole host) := by
        simp only [shimInstall, refreshSize, setScreen, wp_bind, wp_modify, wp_pure]
        exact wp.imp wp.trivial fun _ _ _ => wp.trivial
      rw [hinstall] at h
      cases hstatus.ok hinstall
      exact ⟨c₀, ⟨scenarioRounds, hinstall⟩, runConsoleCalls_runs .none h⟩

/-- A test of where a scenario ends shows that such a state is reached, on a server that
has its shell. -/
theorem exists_shim {P : Console Server → Prop} [DecidablePred P] (calls : List ConsoleCall)
    (input : List ReadResult)
    (h : ((scenario E [.accept scenarioRounds] input).any fun host =>
      host.link.conn.chan.shellReady &&
        (consoleScenario E calls host).toOption.any fun c => decide (P c)) = true) :
    ∃ host c, Reachable E host ∧ host.link.conn.chan.shellReady = true ∧
      ShimReachable (serverSsh E) quietFirmware host c ∧ P c := by
  cases hend : scenario E [.accept scenarioRounds] input with
  | none =>
      rw [hend] at h
      cases h
  | some host =>
      rw [hend] at h
      obtain ⟨hready, hshim⟩ := Bool.and_eq_true_iff.mp h
      cases hrun : consoleScenario E calls host with
      | error stop =>
          rw [hrun] at hshim
          cases hshim
      | ok c =>
          rw [hrun] at hshim
          exact ⟨host, c, scenario_reachable hend, hready, consoleScenario_reachable hrun,
            of_decide_eq_true hshim⟩

end EfiSshServer
