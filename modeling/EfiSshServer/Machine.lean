import EfiSshServer.Lib.Resources
import EfiSshServer.Console

/-!
# The firmware around the shim

`ShimInstall` puts the shim where the system table had the console, and `ShimRemove`
puts back what was there.  A `Machine` is what both work on: the console fields of
`gST`, the fields of `CONSOLE_SHIM` that `Console` leaves out, and a log of what the
firmware was asked and answered.  A `Desk` is a machine with a session.

What the firmware, the network and the Shell do is a `Platform`: functions of the log, so
that each call can have any outcome.  An answer that delivers no pointer counts as an
error.
-/

namespace EfiSshServer

open StateProgram Resources

/-! ## Constants -/

def efiNotFound : EfiStatus := efiErr 14
def efiAborted : EfiStatus := efiErr 21

/-- `EFI_ERROR`: the status is negative as an `INTN`. -/
def efiError (st : EfiStatus) : Bool := st ≥ 0x8000000000000000

/-! ## State -/

abbrev Pointer := UInt64
abbrev EfiHandle := UInt64
abbrev EfiEvent := UInt64

/-- The console fields of `EFI_SYSTEM_TABLE`. -/
structure Consoles where
  conIn : Pointer
  conOut : Pointer
  stdErr : Pointer
  consoleInHandle : EfiHandle
  consoleOutHandle : EfiHandle
  standardErrorHandle : EfiHandle
  deriving DecidableEq

/-- The fields of `CONSOLE_SHIM` that belong to the firmware. -/
structure ShimRecord where
  waitForKey : EfiEvent
  waitForKeyEx : EfiEvent
  handle : EfiHandle
  /-- `OldConIn`, `OldConOut`, `OldStdErr` and the three old handles. -/
  old : Consoles
  installed : Bool

/-- What `LaunchShell` asks the firmware. -/
inductive FirmwareCall where
  | loadedImage
  | devicePath
  | allocPath
  | loadFile (path : List UInt16)
  | locateVolumes
  | volumeProtocol (i : ℕ)
  | readShell (i : ℕ)
  | loadVolume (i : ℕ)
  deriving DecidableEq

inductive MachineEvent where
  /-- `CreateEvent` and `CloseEvent` of the shim. -/
  | created (ev : EfiEvent)
  | createFailed
  | closed (ev : EfiEvent)
  /-- The protocols of the shim, on this handle. -/
  | installed (handle : EfiHandle)
  | installFailed
  | uninstalled (handle : EfiHandle)
  | uninstallFailed
  /-- `NetAccept` was called, and `NetCloseConn`. -/
  | netAccept
  | netCloseConn
  | asked (call : FirmwareCall)
  /-- `StartImage` was called. -/
  | started
  /-- The Shell made a move. -/
  | moved
  /-- `StartImage` returned this status. -/
  | exited (status : EfiStatus)
  deriving DecidableEq

structure Machine where
  gST : Consoles
  shim : ShimRecord
  log : List MachineEvent

/-- The machine during a session; `console` is the rest of `CONSOLE_SHIM`. -/
structure Desk (σ : Type) extends Machine where
  console : Console σ

/-! ## The platform -/

/-- A node of a device path: its type, and the `CHAR16` behind its header. -/
structure PathNode where
  filePath : Bool
  chars : List UInt16

/-- What a running Shell does next. -/
inductive ShellMove where
  | call (call : ConsoleCall)
  /-- It changes the console fields of the system table. -/
  | setConsoles (consoles : Consoles)
  | exit (status : EfiStatus)

/-- The SSH library on a connection: `SshNew`, and `SshAccept` (`false` for -1) and
`SshClose`. -/
structure SshLib (σ : Type) extends Ssh σ where
  new : List MachineEvent → Option σ
  accept : (rounds : ℕ) → Program Stop σ Bool
  close : (rounds : ℕ) → Program Stop σ Unit

/-- The library as it is, on connections that read `input` after the calls `calls`. -/
def serverLib (E : Env) (connSize : ℕ) (hostSeed : Bytes)
    (calls : List MachineEvent → List Call) (input : List MachineEvent → List ReadResult) :
    SshLib Server where
  toSsh := serverSsh E
  new log := sshNew E connSize hostSeed (calls log) (input log)
  accept rounds := do
    match ← hostCall (sshAccept E rounds) with
    | none => throw .running
    | some ret => return ret = 0
  close rounds := do
    match ← hostCall (sshClose E rounds 0) with
    | none => throw .running
    | some _ => return ()

structure Platform (σ : Type) where
  ssh : SshLib σ
  /-- The local console. -/
  firmware : Firmware σ
  /-- `&S->TextIn` and `&S->TextOut`. -/
  textIn : Pointer
  textOut : Pointer
  createEvent : List MachineEvent → EfiStatus × EfiEvent
  installProtocols : List MachineEvent → EfiStatus × EfiHandle
  uninstallProtocols : List MachineEvent → EfiStatus
  answer : FirmwareCall → List MachineEvent → EfiStatus
  /-- The number of firmware volumes. -/
  volumes : List MachineEvent → ℕ
  /-- Of the loaded image: the device handle is not `NULL`, and the nodes of `FilePath`. -/
  hasDevice : Bool
  filePath : List PathNode
  shell : Desk σ → ShellMove
  /-- `ParseArgs` returns `TRUE`, and `mCfg.ShellPath`. -/
  parseArgs : Bool
  shellPath : List UInt16
  allocConn : Bool
  allocShim : Bool
  netListenStart : EfiStatus
  netAccept : List MachineEvent → EfiStatus

variable {σ : Type}

abbrev MachineM := Program Stop Machine
abbrev DeskM (σ : Type) := Program Stop (Desk σ)

/-- The local console as the shim finds it behind `OldConIn` and `OldConOut`. -/
def Platform.localConsole (P : Platform σ) (old : Consoles) : Firmware σ :=
  { P.firmware with hasConIn := old.conIn ≠ 0, hasConOut := old.conOut ≠ 0 }

namespace DeskM

def record (e : MachineEvent) : DeskM σ Unit := modify fun d => { d with log := e :: d.log }

/-- A call of the shim. -/
def onConsole {α : Type} (m : ConsoleM σ α) : DeskM σ α :=
  zoom Desk.console (fun con d => { d with console := con }) m

/-- A call on the connection that is none of the shim's. -/
def onHost {α : Type} (m : Program Stop σ α) : DeskM σ α :=
  onConsole (zoom (fun con => con.host) (fun host con => { con with host := host }) m)

end DeskM

open DeskM

/-! ## Firmware services -/

section Services

variable (P : Platform σ)

def createEvent : DeskM σ (EfiStatus × EfiEvent) := do
  let out := P.createEvent (← get).log
  if efiError out.1 then record .createFailed else record (.created out.2)
  return out

def closeEvent (ev : EfiEvent) : DeskM σ Unit := record (.closed ev)

/-- `InstallMultipleProtocolInterfaces` installs all three protocols or none. -/
def installProtocols : DeskM σ (EfiStatus × EfiHandle) := do
  let out := P.installProtocols (← get).log
  if efiError out.1 then record .installFailed else record (.installed out.2)
  return out

/-- `UninstallMultipleProtocolInterfaces`; `ShimRemove` does not look at its status. -/
def uninstallProtocols (handle : EfiHandle) : DeskM σ Unit := do
  if efiError (P.uninstallProtocols (← get).log) then record .uninstallFailed
  else record (.uninstalled handle)

/-- Any other question. -/
def ask (call : FirmwareCall) : DeskM σ EfiStatus := do
  let st := P.answer call (← get).log
  record (.asked call)
  return st

end Services

/-! ## `ShimInstall` and `ShimRemove` -/

/-- The `memset` of `ShimInstall`. -/
def zeroRecord : ShimRecord := ⟨0, 0, 0, ⟨0, 0, 0, 0, 0, 0⟩, false⟩

def updateShim (f : ShimRecord → ShimRecord) : DeskM σ Unit :=
  modify fun d => { d with shim := f d.shim }

section Shim

variable (P : Platform σ) (rounds : ℕ)

/-- The console fields while the shim is installed. -/
def Platform.redirected (handle : EfiHandle) : Consoles :=
  ⟨P.textIn, P.textOut, P.textOut, handle, handle, handle⟩

/-- The end of `ShimInstall`, once the protocols are installed. -/
def redirect (handle : EfiHandle) : DeskM σ EfiStatus := do
  updateShim fun shim => { shim with handle := handle }
  modify fun d => { d with
    gST := P.redirected handle
    shim := { d.shim with old := d.gST, installed := true } }
  let fw := P.localConsole (← get).shim.old
  onConsole (emit P.ssh.toSsh fw rounds (ascii "\x1b[0m"))
  onConsole (flush P.ssh.toSsh fw rounds)
  return efiSuccess

/-- `ShimInstall` on the connection of the console. -/
def Desk.shimInstall : DeskM σ EfiStatus := do
  modify fun d => { d with shim := zeroRecord, console := zeroConsole d.console.host }
  onConsole (refreshSize P.ssh.toSsh)
  let (st, key) ← createEvent P
  if efiError st then return st
  updateShim fun shim => { shim with waitForKey := key }
  let (st, keyEx) ← createEvent P
  if efiError st then
    closeEvent key
    return st
  updateShim fun shim => { shim with waitForKeyEx := keyEx }
  onConsole (setScreen fun scr => { scr with mode := ⟨0, 0x07, 0, 0, true⟩ })
  let (st, handle) ← installProtocols P
  if efiError st then
    closeEvent key
    closeEvent keyEx
    return st
  redirect P rounds handle

/-- `ShimRemove`. -/
def Desk.shimRemove : DeskM σ Unit := do
  let shim := (← get).shim
  if shim.installed = false then return ()
  let fw := P.localConsole shim.old
  onConsole (emit P.ssh.toSsh fw rounds (ascii "\x1b[0m\r\n"))
  onConsole (flush P.ssh.toSsh fw rounds)
  modify fun d => { d with gST := shim.old }
  uninstallProtocols P shim.handle
  closeEvent shim.waitForKey
  closeEvent shim.waitForKeyEx
  updateShim fun shim => { shim with installed := false }

end Shim

end EfiSshServer
