import EfiSshServer.Launch
import EfiSshServer.ShimScenario

/-!
# The console between sessions

Whatever fails, and whatever the Shell does to the system table, `EfiMain` is back to
the console it found whenever it waits for a client: `Restored` holds at every call of
`NetAccept` and at the exit.  While the shim is installed it holds two events and the
protocols, and it knows the old console (`Borrowed`).
-/

namespace EfiSshServer

open StateProgram Resources DeskM

variable {σ : Type} {P : Platform σ} {rounds : ℕ} {consoles : Consoles} {d d' : Desk σ}

/-! ## What the shim holds -/

/-- The events the shim creates and closes. -/
def eventUse : MachineEvent → Option (Use EfiEvent)
  | .created ev => some (.acquire ev)
  | .closed ev => some (.release ev)
  | _ => none

/-- The handles its protocols are installed on. -/
def protocolUse : MachineEvent → Option (Use EfiHandle)
  | .installed handle => some (.acquire handle)
  | .uninstalled handle => some (.release handle)
  | _ => none

structure Holds (events : Multiset EfiEvent) (handles : Multiset EfiHandle)
    (log : List MachineEvent) : Prop where
  events : held eventUse log = some events
  handles : held protocolUse log = some handles

variable {events : Multiset EfiEvent} {handles : Multiset EfiHandle} {log : List MachineEvent}
  {ev : EfiEvent} {handle : EfiHandle}

theorem Holds.of_none {e : MachineEvent} (h : Holds events handles log) (hev : eventUse e = none)
    (hprotocol : protocolUse e = none) : Holds events handles (e :: log) :=
  ⟨(held_of_none hev).trans h.events, (held_of_none hprotocol).trans h.handles⟩

theorem Holds.created (h : Holds events handles log) :
    Holds (ev ::ₘ events) handles (.created ev :: log) :=
  ⟨held_acquire rfl h.events, (held_of_none rfl).trans h.handles⟩

theorem Holds.closed (h : Holds (ev ::ₘ events) handles log) :
    Holds events handles (.closed ev :: log) :=
  ⟨held_release rfl h.events, (held_of_none rfl).trans h.handles⟩

theorem Holds.installed (h : Holds events handles log) :
    Holds events (handle ::ₘ handles) (.installed handle :: log) :=
  ⟨(held_of_none rfl).trans h.events, held_acquire rfl h.handles⟩

theorem Holds.uninstalled (h : Holds events (handle ::ₘ handles) log) :
    Holds events handles (.uninstalled handle :: log) :=
  ⟨(held_of_none rfl).trans h.events, held_release rfl h.handles⟩

/-- The console is the one at program start, every event of the shim was closed exactly
once, and its protocols are installed nowhere. -/
structure Restored (consoles : Consoles) (m : Machine) : Prop where
  gST : m.gST = consoles
  holds : Holds 0 0 m.log

/-- In terms of counts: as many closes as creations, for every event. -/
theorem Restored.closed_eq_created {m : Machine} (h : Restored consoles m) (ev : EfiEvent) :
    m.log.count (.closed ev) = m.log.count (.created ev) := by
  have hbalance := held_balance h.holds.events ev
  rw [Multiset.count_zero, Nat.add_zero] at hbalance
  have hcreated : (fun e : MachineEvent => decide (eventUse e = some (.acquire ev))) =
      (· == .created ev) := by
    funext e
    rw [Bool.eq_iff_iff]
    cases e <;> simp [eventUse]
  have hclosed : (fun e : MachineEvent => decide (eventUse e = some (.release ev))) =
      (· == .closed ev) := by
    funext e
    rw [Bool.eq_iff_iff]
    cases e <;> simp [eventUse]
  rw [hcreated, hclosed] at hbalance
  exact hbalance.symm

/-- The shim stands in for the console. -/
structure Borrowed (consoles : Consoles) (m : Machine) : Prop where
  installed : m.shim.installed = true
  old : m.shim.old = consoles
  holds : Holds (m.shim.waitForKey ::ₘ m.shim.waitForKeyEx ::ₘ 0) (m.shim.handle ::ₘ 0) m.log

/-! ## `ShimInstall` -/

section Rules

variable {α : Type} {fault : Stop → Prop}

theorem wp_onConsole {post : α → Desk σ → Prop} (m : ConsoleM σ α) :
    wp (onConsole m) post fault =
      fun d => wp m (fun a con => post a { d with console := con }) fault d.console := by
  rw [onConsole, wp_zoom]

/-- The machine is the frame of what the shim does on its connection. -/
theorem wp_onConsole_of_forall {post : α → Desk σ → Prop} {m : ConsoleM σ α}
    (h : ∀ a con, m d.console = .ok (a, con) → post a { d with console := con }) :
    wp (onConsole m) post anyStop d := by
  rw [wp_onConsole]
  exact wp_of_forall h fun _ _ => trivial

theorem wp_onHost_of_forall {post : α → Desk σ → Prop} {m : Program Stop σ α}
    (h : ∀ a con, post a { d with console := con }) : wp (onHost m) post anyStop d :=
  wp_onConsole_of_forall fun a con _ => h a con

theorem wp_log {post : PUnit → Desk σ → Prop} (e : MachineEvent) :
    wp (record e) post fault = fun d => post ⟨⟩ { d with log := e :: d.log } :=
  rfl

end Rules

theorem createEvent_spec (h : Holds events handles d.log) :
    wp (createEvent P) (fun out d' => ∃ log, d' = { d with log := log } ∧
      Holds (if efiError out.1 then events else out.2 ::ₘ events) handles log) anyStop d := by
  simp only [createEvent, wp_bind, wp_get, wp_pure, wp_ite, wp_log]
  refine ⟨fun herror => ⟨_, rfl, ?_⟩, fun hok => ⟨_, rfl, ?_⟩⟩
  · rw [if_pos herror]
    exact h.of_none rfl rfl
  · rw [if_neg hok]
    exact h.created

theorem installProtocols_spec (h : Holds events handles d.log) :
    wp (installProtocols P) (fun out d' => ∃ log, d' = { d with log := log } ∧
      Holds events (if efiError out.1 then handles else out.2 ::ₘ handles) log) anyStop d := by
  simp only [installProtocols, wp_bind, wp_get, wp_pure, wp_ite, wp_log]
  refine ⟨fun herror => ⟨_, rfl, ?_⟩, fun hok => ⟨_, rfl, ?_⟩⟩
  · rw [if_pos herror]
    exact h.of_none rfl rfl
  · rw [if_neg hok]
    exact h.installed

/-- If `ShimInstall` fails, it leaves nothing behind. -/
theorem shimInstall_spec (h : Restored consoles d.toMachine) :
    wp (Desk.shimInstall P rounds) (fun st d' =>
      (efiError st = true → Restored consoles d'.toMachine) ∧
      (efiError st = false → Borrowed consoles d'.toMachine ∧
        Installed P.ssh.toSsh (P.localConsole consoles) d.console.host d'.console)) anyStop d := by
  simp only [Desk.shimInstall, wp_bind, wp_modify]
  refine wp_onConsole_of_forall fun _ con₁ hsize => ?_
  -- each of the three resources is given back when a later one is refused
  refine wp.imp (createEvent_spec h.holds) fun ⟨st, key⟩ d₁ ⟨log₁, hd₁, hholds₁⟩ => ?_
  subst hd₁
  refine wp.ite (fun herror => ?_) fun hok => ?_
  · rw [if_pos herror] at hholds₁
    exact ⟨fun _ => ⟨h.gST, hholds₁⟩, fun hfalse => by simp [herror] at hfalse⟩
  rw [if_neg hok] at hholds₁
  simp only [wp_bind, updateShim, wp_modify]
  refine wp.imp (createEvent_spec hholds₁) fun ⟨st, keyEx⟩ d₂ ⟨log₂, hd₂, hholds₂⟩ => ?_
  subst hd₂
  refine wp.ite (fun herror => ?_) fun hok => ?_
  · rw [if_pos herror] at hholds₂
    exact ⟨fun _ => ⟨h.gST, hholds₂.closed⟩, fun hfalse => by simp [herror] at hfalse⟩
  rw [if_neg hok] at hholds₂
  simp only [wp_bind, wp_modify]
  refine wp_onConsole_of_forall fun _ con₂ hscreen => ?_
  refine wp.imp (installProtocols_spec hholds₂) fun ⟨st, handle⟩ d₃ ⟨log₃, hd₃, hholds₃⟩ => ?_
  subst hd₃
  have hswap : Holds (key ::ₘ keyEx ::ₘ 0) (if efiError st then 0 else handle ::ₘ 0) log₃ :=
    Multiset.cons_swap keyEx key 0 ▸ hholds₃
  refine wp.ite (fun herror => ?_) fun hok => ?_
  · rw [if_pos herror] at hswap
    exact ⟨fun _ => ⟨h.gST, hswap.closed.closed⟩, fun hfalse => by simp [herror] at hfalse⟩
  rw [if_neg hok] at hswap
  simp only [redirect, wp_bind, updateShim, wp_modify, wp_get]
  refine wp_onConsole_of_forall fun _ con₃ hemit => ?_
  refine wp_onConsole_of_forall fun _ con₄ hflush => ?_
  refine ⟨fun herror => ?_, fun _ => ⟨⟨rfl, h.gST, hswap⟩, rounds, ?_⟩⟩
  · exact absurd herror (by decide)
  · rw [shimInstall, bind_ok hsize, bind_ok hscreen]
    rw [show P.localConsole consoles = P.localConsole d.gST by rw [h.gST], bind_ok hemit,
      bind_ok hflush]
    rfl

/-! ## `LaunchShell` -/

/-- What goes on while the shim is installed: it makes its calls, the console fields
change, and what the shim holds stays with it. -/
structure ShellSteps (P : Platform σ) (d d' : Desk σ) : Prop where
  shim : d'.shim = d.shim
  holds : ∀ {events handles}, Holds events handles d.log → Holds events handles d'.log
  console : ConsoleRuns P.ssh.toSsh (P.localConsole d.shim.old) d.console d'.console

theorem ShellSteps.refl (d : Desk σ) : ShellSteps P d d := ⟨rfl, id, .none⟩

theorem ShellSteps.trans {d'' : Desk σ} (h : ShellSteps P d d') (h' : ShellSteps P d' d'') :
    ShellSteps P d d'' :=
  ⟨h'.shim.trans h.shim, h'.holds ∘ h.holds, h.console.trans (h.shim ▸ h'.console)⟩

/-- A program that does no more than that. -/
def Launches {α : Type} (P : Platform σ) (m : DeskM σ α) : Prop :=
  ∀ d, wp m (fun _ d' => ShellSteps P d d') anyStop d

section Launches

variable {α β : Type}

theorem Launches.pure (a : α) : Launches P (Pure.pure a : DeskM σ α) := fun d => .refl d

theorem Launches.bind {m : DeskM σ α} {k : α → DeskM σ β} (hm : Launches P m)
    (hk : ∀ a, Launches P (k a)) : Launches P (m >>= k) := by
  intro d
  rw [wp_bind]
  exact wp.imp (hm d) fun a d' h => wp.imp (hk a d') fun _ _ h' => h.trans h'

theorem Launches.ite {c : Prop} [Decidable c] {m n : DeskM σ α} (hm : Launches P m)
    (hn : Launches P n) : Launches P (if c then m else n) := by
  split
  · exact hm
  · exact hn

theorem Launches.record {e : MachineEvent} (hev : eventUse e = none)
    (hprotocol : protocolUse e = none) : Launches P (record e : DeskM σ Unit) := fun _ =>
  ⟨rfl, fun h => h.of_none hev hprotocol, .none⟩

theorem Launches.get : Launches P (MonadState.get : DeskM σ (Desk σ)) := fun d => .refl d

theorem ask_launches (call : FirmwareCall) : Launches P (ask P call) := by
  refine .bind .get fun d => ?_
  exact .bind (.record rfl rfl) fun _ => .pure _

end Launches

theorem runShell_launches (rounds : ℕ) : Launches P (runShell P rounds) := by
  induction rounds with
  | zero => exact fun _ => trivial
  | succ rounds ih =>
      intro d
      simp only [runShell, wp_bind, wp_get, wp_log]
      split
      · exact ⟨rfl, fun h => (h.of_none rfl rfl).of_none rfl rfl, .none⟩
      · simp only [wp_bind, wp_modify]
        refine wp.imp (ih _) fun _ _ h => ShellSteps.trans ?_ h
        exact ⟨rfl, fun h => h.of_none rfl rfl, .none⟩
      · simp only [wp_bind]
        refine wp_onConsole_of_forall fun _ con hrun => wp.imp (ih _) fun _ _ h => ?_
        refine ShellSteps.trans ?_ h
        exact ⟨rfl, fun h => h.of_none rfl rfl, .call .none _ _ hrun⟩

theorem startImageWithOpts_launches : Launches P (startImageWithOpts P rounds) :=
  .bind (.record rfl rfl) fun _ => runShell_launches rounds

theorem tryVolumes_launches (count i : ℕ) : Launches P (tryVolumes P rounds count i) := by
  induction count generalizing i with
  | zero => exact .pure _
  | succ count ih =>
      refine .bind (ask_launches _) fun _ => .ite (ih _) ?_
      refine .bind (ask_launches _) fun _ => .ite (ih _) ?_
      exact .bind (ask_launches _) fun _ => .ite (ih _) startImageWithOpts_launches

theorem tryFv_launches : Launches P (tryFv P rounds) := by
  refine .bind (ask_launches _) fun _ => .ite (.pure _) ?_
  exact .bind .get fun _ => tryVolumes_launches _ _

theorem tryFile_launches (path : List UInt16) : Launches P (tryFile P rounds path) := by
  refine .ite (.pure _) (.bind (ask_launches _) fun _ => .ite (.pure _) ?_)
  refine .bind (ask_launches _) fun _ => .ite (.pure _) ?_
  exact .bind (ask_launches _) fun _ => .ite (.pure _) startImageWithOpts_launches

theorem tryCandidates_launches (dir : List UInt16) (candidates : List (List UInt16)) :
    Launches P (tryCandidates P rounds dir candidates) := by
  induction candidates with
  | nil => exact .pure _
  | cons candidate rest ih =>
      exact .ite ih (.bind (tryFile_launches _) fun _ => .ite (.pure _) ih)

theorem launchDefault_launches : Launches P (launchDefault P rounds) :=
  .bind tryFv_launches fun _ => .ite (.pure _) (tryCandidates_launches _ _)

theorem launchShell_launches : Launches P (launchShell P rounds) := by
  refine .bind (ask_launches _) fun _ => .ite (.pure _) (.ite ?_ launchDefault_launches)
  exact .bind (tryFile_launches _) fun _ => .ite (.pure _) launchDefault_launches

theorem ShellSteps.borrowed (h : ShellSteps P d d') (hborrowed : Borrowed consoles d.toMachine) :
    Borrowed consoles d'.toMachine := by
  obtain ⟨hinstalled, hold, hholds⟩ := hborrowed
  have hshim := h.shim
  refine ⟨?_, ?_, ?_⟩
  · rw [hshim]
    exact hinstalled
  · rw [hshim]
    exact hold
  · rw [hshim]
    exact h.holds hholds

/-! ## `ShimRemove` -/

theorem shimRemove_spec (h : Borrowed consoles d.toMachine)
    (huninstall : ∀ log, efiError (P.uninstallProtocols log) = false) :
    wp (Desk.shimRemove P rounds) (fun _ d' => Restored consoles d'.toMachine) anyStop d := by
  obtain ⟨hinstalled, hold, hholds⟩ := h
  simp only [Desk.shimRemove, wp_bind, wp_get]
  refine wp.ite (fun hfalse => by simp [hinstalled] at hfalse) fun _ => ?_
  simp only [wp_bind]
  refine wp_onConsole_of_forall fun _ con₁ _ => wp_onConsole_of_forall fun _ con₂ _ => ?_
  simp only [wp_modify, uninstallProtocols, wp_bind, wp_get]
  refine wp.ite (fun hfail => by simp [huninstall] at hfail) fun _ => ?_
  simp only [wp_log, closeEvent, updateShim, wp_modify]
  exact ⟨hold, hholds.uninstalled.closed.closed⟩

/-! ## `EfiMain` -/

section Main

variable {m m' : Machine}

theorem shellSession_spec (h : Restored consoles d.toMachine)
    (huninstall : ∀ log, efiError (P.uninstallProtocols log) = false) :
    wp (shellSession P rounds) (fun _ d' => Restored consoles d'.toMachine) anyStop d := by
  simp only [shellSession, wp_bind]
  refine wp.imp (shimInstall_spec h) fun st d₁ ⟨hfailed, hok⟩ => ?_
  refine wp.ite hfailed fun hst => ?_
  obtain ⟨hborrowed, -⟩ := hok (Bool.not_eq_true _ ▸ hst)
  simp only [wp_bind]
  refine wp.imp (launchShell_launches d₁) fun st d₂ hsteps => ?_
  refine wp.imp (shimRemove_spec (hsteps.borrowed hborrowed) huninstall) fun _ d₃ hrestored => ?_
  refine wp.ite (fun _ => ?_) fun _ => hrestored
  rw [wp_bind]
  exact wp_onHost_of_forall fun _ _ => hrestored

theorem serveClient_spec (h : Restored consoles d.toMachine)
    (huninstall : ∀ log, efiError (P.uninstallProtocols log) = false) :
    wp (serveClient P rounds) (fun _ d' => Restored consoles d'.toMachine) anyStop d := by
  have hclose : ∀ {d : Desk σ}, Restored consoles d.toMachine →
      wp (do onHost (P.ssh.close rounds); record .netCloseConn)
        (fun _ d' => Restored consoles d'.toMachine) anyStop d := by
    intro d h
    rw [wp_bind]
    exact wp_onHost_of_forall fun _ _ => ⟨h.gST, h.holds.of_none rfl rfl⟩
  simp only [serveClient, wp_bind]
  refine wp_onHost_of_forall fun accepted con => wp.ite (fun _ => ?_) fun _ => hclose ⟨h.1, h.2⟩
  rw [wp_bind]
  exact wp.imp (shellSession_spec ⟨h.gST, h.holds⟩ huninstall) fun _ _ => hclose

theorem serveSession_spec (h : Restored consoles m)
    (huninstall : ∀ log, efiError (P.uninstallProtocols log) = false) :
    wp (serveSession P rounds) (fun _ m' => Restored consoles m') anyStop m := by
  unfold wp serveSession
  cases P.ssh.new m.log with
  | none => exact ⟨h.gST, h.holds.of_none rfl rfl⟩
  | some host =>
      dsimp only
      cases hrun : serveClient P rounds ⟨m, zeroConsole host⟩ with
      | ok out => exact (serveClient_spec h huninstall).ok hrun
      | error stop => trivial

/-- A turn of the loop, whether it is the last one or not. -/
theorem acceptRound_spec (h : Restored consoles m)
    (huninstall : ∀ log, efiError (P.uninstallProtocols log) = false) (failures : ℕ) :
    wp (acceptRound P rounds failures) (fun _ m' => Restored consoles m') anyStop m := by
  have hasked : Restored consoles { m with log := .netAccept :: m.log } :=
    ⟨h.gST, h.holds.of_none rfl rfl⟩
  simp only [acceptRound, wp_bind, wp_get, wp_modify]
  refine wp.ite (fun _ => hasked) fun _ => ?_
  refine wp.ite (fun _ => wp.ite (fun _ => hasked) fun _ => hasked) fun _ => ?_
  simp only [wp_bind, wp_pure]
  exact serveSession_spec hasked huninstall

theorem AtAccept.restored {failures : ℕ} (h : AtAccept P consoles m failures)
    (huninstall : ∀ log, efiError (P.uninstallProtocols log) = false) : Restored consoles m := by
  induction h with
  | first => exact ⟨rfl, rfl, rfl⟩
  | next _ rounds hrun ih => exact (acceptRound_spec ih huninstall _).ok hrun

theorem acceptLoop_spec (turns : ℕ) {failures : ℕ} (h : Restored consoles m)
    (huninstall : ∀ log, efiError (P.uninstallProtocols log) = false) :
    wp (acceptLoop P rounds turns failures) (fun _ m' => Restored consoles m') anyStop m := by
  induction turns generalizing m failures with
  | zero => trivial
  | succ turns ih =>
      simp only [acceptLoop, wp_bind]
      refine wp.imp (acceptRound_spec h huninstall failures) fun round m₁ h₁ => ?_
      cases round with
      | stop => exact h₁
      | again failures => exact ih h₁

/-- **The console is restored.**  Whenever `EfiMain` calls `NetAccept`, and when it
returns, the console fields are those at program start, every event of the shim is closed,
once, and its protocols are installed on no handle. -/
theorem console_restored (P : Platform σ) (consoles : Consoles)
    (huninstall : ∀ log, efiError (P.uninstallProtocols log) = false) :
    (∀ m failures, AtAccept P consoles m failures → Restored consoles m) ∧
      ∀ rounds turns st m', efiMain P rounds turns (atStart consoles) = .ok (st, m') →
        Restored consoles m' := by
  have hstart : Restored consoles (atStart consoles) := ⟨rfl, rfl, rfl⟩
  refine ⟨fun m failures h => h.restored huninstall, fun rounds turns st m' hrun => ?_⟩
  have hmain : wp (efiMain P rounds turns) (fun _ m' => Restored consoles m') anyStop
      (atStart consoles) := by
    unfold efiMain
    split
    · exact hstart
    · simp only [wp_bind, wp_pure]
      exact acceptLoop_spec turns hstart huninstall
  exact hmain.ok hrun

/-- A platform with one client, whose Shell changes the console fields before it exits. -/
def samplePlatform : Platform Server where
  ssh := serverLib (plainEnv fun _ _ => true) 0 [] (fun _ => [])
    (fun _ => [.data (clientShell "root" "secret"), .data (sealedFrame clientClose)])
  firmware := quietFirmware
  textIn := 0x1000
  textOut := 0x1010
  createEvent log := (efiSuccess, UInt64.ofNat log.length)
  installProtocols _ := (efiSuccess, 0x20)
  uninstallProtocols _ := efiSuccess
  answer _ _ := efiSuccess
  volumes _ := 1
  hasDevice := true
  filePath := []
  shell d := if d.gST.conIn = 0x30 then .exit efiSuccess
    else .setConsoles ⟨0x30, 0x30, 0x30, 0x30, 0x30, 0x30⟩
  parseArgs := true
  shellPath := []
  allocConn := true
  allocShim := true
  netListenStart := efiSuccess
  netAccept log := if log = [] then efiSuccess else efiAborted

/-- After the session of that client. -/
theorem console_restored_sample : ∃ m, AtAccept samplePlatform ⟨1, 2, 3, 4, 5, 6⟩ m 0 ∧
    MachineEvent.installed 0x20 ∈ m.log ∧ MachineEvent.started ∈ m.log ∧
    Restored ⟨1, 2, 3, 4, 5, 6⟩ m := by
  have hround : (acceptRound samplePlatform scenarioRounds 0
      (atStart ⟨1, 2, 3, 4, 5, 6⟩)).toOption.any (fun out => decide (out.1 = .again 0 ∧
        MachineEvent.installed 0x20 ∈ out.2.log ∧ MachineEvent.started ∈ out.2.log)) = true := by
    decide +kernel
  obtain ⟨⟨round, m⟩, hrun, hround, hinstalled, hstarted⟩ := exists_ok hround
  obtain rfl : round = .again 0 := hround
  have haccept := AtAccept.next (.first rfl) scenarioRounds hrun
  exact ⟨m, haccept, hinstalled, hstarted,
    (console_restored samplePlatform ⟨1, 2, 3, 4, 5, 6⟩ (fun _ => rfl)).1 m 0 haccept⟩

end Main

end EfiSshServer
