import EfiSshServer.Machine

/-!
# Starting the Shell, and `EfiMain`

`LaunchShell` looks for a Shell image and starts it; a started Shell makes calls of the
shim and changes the console fields until it exits.  `acceptRound` is the body of the
loop of `EfiMain`, and `AtAccept` are the states in which the loop calls `NetAccept`.
-/

namespace EfiSshServer

open StateProgram DeskM

variable {σ : Type}

/-! ## `LaunchShell` -/

section Launch

variable (P : Platform σ)

/-- A Shell from `StartImage` to its exit. -/
def runShell : (rounds : ℕ) → DeskM σ EfiStatus
  | 0 => throw .running
  | rounds + 1 => do
      let d ← get
      record .moved
      match P.shell d with
      | .exit st =>
          record (.exited st)
          return st
      | .setConsoles consoles =>
          modify fun d => { d with gST := consoles }
          runShell rounds
      | .call call =>
          onConsole (runConsole P.ssh.toSsh (P.localConsole d.shim.old) rounds call)
          runShell rounds

/-- `StartImageWithOpts`, less the load options. -/
def startImageWithOpts (rounds : ℕ) : DeskM σ EfiStatus := do
  record .started
  runShell P rounds

/-- The loop of `TryFv`, from volume `i` on. -/
def tryVolumes (rounds : ℕ) : (count i : ℕ) → DeskM σ EfiStatus
  | 0, _ => return efiNotFound
  | count + 1, i => do
      if efiError (← ask P (.volumeProtocol i)) then tryVolumes rounds count (i + 1)
      else if efiError (← ask P (.readShell i)) then tryVolumes rounds count (i + 1)
      else if efiError (← ask P (.loadVolume i)) then tryVolumes rounds count (i + 1)
      else startImageWithOpts P rounds

def tryFv (rounds : ℕ) : DeskM σ EfiStatus := do
  if efiError (← ask P .locateVolumes) then return efiNotFound
  tryVolumes P rounds (P.volumes (← get).log) 0

def backslash : UInt16 := 0x5C

/-- Up to the last backslash. -/
def directoryOf (path : List UInt16) : List UInt16 :=
  (path.reverse.dropWhile (· ≠ backslash)).reverse

/-- The directory of one node of the path. -/
def PathNode.directory (node : PathNode) : List UInt16 :=
  directoryOf (node.chars.takeWhile (· ≠ 0))

/-- `OwnDirectory`, into a buffer of `cap` characters. -/
def ownDirectory (nodes : List PathNode) (cap : ℕ) : List UInt16 :=
  nodes.foldl (fun out node => if node.filePath = true ∧ node.directory.length + 1 < cap then
    node.directory else out) []

def tryFile (rounds : ℕ) (path : List UInt16) : DeskM σ EfiStatus := do
  if P.hasDevice = false ∨ path = [] then return efiNotFound
  if efiError (← ask P .devicePath) then return efiNotFound
  if efiError (← ask P .allocPath) then return efiOutOfResources
  let st ← ask P (.loadFile path)
  if efiError st then return st
  startImageWithOpts P rounds

def wide (s : String) : List UInt16 := (ascii s).map UInt8.toUInt16

/-- The table in `LaunchShell`. -/
def candidates : List (List UInt16) :=
  [wide "Shell.efi", wide "shellx64.efi", wide "\\Shell.efi", wide "\\shellx64.efi",
    wide "\\EFI\\Shell.efi", wide "\\EFI\\shellx64.efi", wide "\\EFI\\Boot\\Shell.efi",
    wide "\\EFI\\Boot\\shellx64.efi", wide "\\EFI\\Tools\\Shell.efi"]

/-- The loop of `LaunchShell`. -/
def tryCandidates (rounds : ℕ) (dir : List UInt16) : List (List UInt16) → DeskM σ EfiStatus
  | [] => return efiNotFound
  | candidate :: rest => do
      if candidate.head? ≠ some backslash ∧ dir = [] then tryCandidates rounds dir rest
      else
        let full := if candidate.head? = some backslash then candidate else dir ++ candidate
        let st ← tryFile P rounds full
        if st ≠ efiNotFound then return st
        tryCandidates rounds dir rest

/-- `LaunchShell` behind the `-s` path. -/
def launchDefault (rounds : ℕ) : DeskM σ EfiStatus := do
  let st ← tryFv P rounds
  if st ≠ efiNotFound then return st
  tryCandidates P rounds (ownDirectory P.filePath 260) candidates

def launchShell (rounds : ℕ) : DeskM σ EfiStatus := do
  if efiError (← ask P .loadedImage) then return efiNotFound
  if P.shellPath ≠ [] then
    let st ← tryFile P rounds P.shellPath
    if st ≠ efiNotFound then return st
  launchDefault P rounds

end Launch

/-! ## `EfiMain` -/

def noShellMessage : Bytes :=
  ascii ("\r\nNo UEFI Shell image could be started on this system. " ++
    "Put Shell.efi next to SshShell.efi or pass -s.\r\n")

section Main

variable (P : Platform σ) (rounds : ℕ)

/-- A session once `SshAccept` has returned 0. -/
def shellSession : DeskM σ Unit := do
  if efiError (← Desk.shimInstall P rounds) then return ()
  let st ← launchShell P rounds
  Desk.shimRemove P rounds
  if efiError st then
    let _ ← onHost (P.ssh.write rounds noShellMessage)

/-- What `EfiMain` does with a connection on which `SshNew` succeeded. -/
def serveClient : DeskM σ Unit := do
  if ← onHost (P.ssh.accept rounds) then shellSession P rounds
  onHost (P.ssh.close rounds)
  record .netCloseConn

/-- Whether the loop of `EfiMain` goes on, and `failures`. -/
inductive Round where
  | stop
  | again (failures : ℕ)
  deriving DecidableEq

/-- What `EfiMain` does with a client that `NetAccept` returned; the shim is
uninitialised memory to `ShimInstall`. -/
def serveSession : MachineM Unit := fun m =>
  match P.ssh.new m.log with
  | none => .ok ((), { m with log := .netCloseConn :: m.log })
  | some host =>
      match serveClient P rounds ⟨m, zeroConsole host⟩ with
      | .ok (_, d) => .ok ((), d.toMachine)
      | .error stop => .error stop

/-- The body of the loop. -/
def acceptRound (failures : ℕ) : MachineM Round := do
  let st := P.netAccept (← get).log
  modify fun m => { m with log := .netAccept :: m.log }
  if st = efiAborted then return .stop
  if efiError st then
    if failures + 1 ≥ 5 then return .stop
    return .again (failures + 1)
  serveSession P rounds
  return .again 0

/-- The loop, with `rounds` for each of its rounds. -/
def acceptLoop : (turns failures : ℕ) → MachineM Unit
  | 0, _ => throw .running
  | turns + 1, failures => do
      match ← acceptRound P rounds failures with
      | .stop => return ()
      | .again failures => acceptLoop turns failures

/-- `EfiMain` up to its loop; the status if it does not get there. -/
def startUp : Option EfiStatus :=
  if P.parseArgs = false then some efiInvalidParameter
  else if P.allocConn = false ∨ P.allocShim = false then some efiOutOfResources
  else if efiError P.netListenStart then some P.netListenStart
  else none

def efiMain (turns : ℕ) : MachineM EfiStatus := do
  match startUp P with
  | some st => return st
  | none =>
      acceptLoop P rounds turns 0
      return efiSuccess

/-- The machine at program start; `CONSOLE_SHIM` is zeroed. -/
def atStart (consoles : Consoles) : Machine := ⟨consoles, zeroRecord, []⟩

end Main

/-- The states in which `EfiMain` calls `NetAccept`, with `failures`. -/
inductive AtAccept (P : Platform σ) (consoles : Consoles) : Machine → (failures : ℕ) → Prop
  | first (h : startUp P = none) : AtAccept P consoles (atStart consoles) 0
  | next {m m' : Machine} {failures failures' : ℕ} (h : AtAccept P consoles m failures)
      (rounds : ℕ) (hrun : acceptRound P rounds failures m = .ok (.again failures', m')) :
      AtAccept P consoles m' failures'

end EfiSshServer
