import Mathlib.Data.List.FinRange
import EfiSshServer.Api
import EfiSshServer.Keys

/-!
# The console shim

`Shim` is the input side of `CONSOLE_SHIM` with the connection it reads from, and
`Console` adds the output side.  Neither looks into the connection: `Ssh` is the
interface of `ssh.h` they use, over any state, and `serverSsh` is the server behind
it.  What the firmware answers (the tick counter, the old local console) is a
`Firmware`, a function of what was recorded before.

A call can wait inside `SshWrite`, or read as long as the client fills every read.
`rounds` bounds both, and `Stop.running` says that a call has not returned by then.

`Shim.log` is not program state.  As the log of a connection it records what the
properties speak about, newest entry first.
-/

namespace EfiSshServer

open StateProgram RingBuffer

/-! ## Constants -/

abbrev shimKeyRing : ℕ := 256
abbrev shimMaxNotify : ℕ := 16
abbrev shimOutBuf : ℕ := 2048
abbrev shimExitInjectMax : ℕ := 40
abbrev escTimeoutTicks : UInt64 := 300000000

/-- `sizeof(buf)` in `PumpInput`. -/
abbrev pumpBuf : ℕ := 256

theorem shimKeyRing_pos : 0 < shimKeyRing := by decide

abbrev EfiStatus := UInt64

def efiErr (code : UInt64) : EfiStatus := 0x8000000000000000 ||| code

def efiSuccess : EfiStatus := 0
def efiInvalidParameter : EfiStatus := efiErr 2
def efiUnsupported : EfiStatus := efiErr 3
def efiNotReady : EfiStatus := efiErr 6
def efiOutOfResources : EfiStatus := efiErr 9

/-! ## The connection under the shim -/

/-- Why a call has no result. -/
inductive Stop where
  | fault (f : Fault)
  /-- The call has not returned yet. -/
  | running

/-- `SshRead` (`none` for -1), `SshWrite` and `SshPoll` (`false` for -1), and
`SshGetWindow`. -/
structure Ssh (σ : Type) where
  read : (max : ℕ) → Program Stop σ (Option Bytes)
  write : (rounds : ℕ) → Bytes → Program Stop σ Bool
  poll : Program Stop σ Bool
  window : σ → UInt32 × UInt32

/-- A call into `ssh.c`. -/
def hostCall {α : Type} (m : ServerM α) : Program Stop Server α := fun s =>
  match m s with
  | .ok out => .ok out
  | .error f => .error (.fault f)

/-- The server as the connection of a shim. -/
def serverSsh (E : Env) : Ssh Server where
  read max := do
    let out ← hostCall (sshRead E max)
    return if out.1 < 0 then none else some out.2
  write rounds buf := do
    match ← hostCall (sshWrite E rounds buf) with
    | none => throw .running
    | some ret => return ret = 0
  poll := do
    let ret ← hostCall (sshPoll E)
    return ¬ ret < 0
  window s := (s.link.conn.chan.cols, s.link.conn.chan.rows)

/-! ## State -/

/-- `SHIM_NOTIFY`; a function pointer is a number, `none` when it is `NULL`. -/
structure Notify where
  key : KeyData
  fn : Option ℕ
  used : Bool
  deriving DecidableEq

abbrev NotifyTable := Fin shimMaxNotify → Notify

/-- The input fields of `CONSOLE_SHIM`. -/
structure Keyboard where
  keys : Ring KeyData shimKeyRing
  decoder : Decoder
  escTick : UInt64
  notify : NotifyTable
  exitInjects : ℕ

/-- The call that made the shim set `Disconnected`. -/
inductive LossSource where
  | read | poll | write
  deriving DecidableEq

inductive ShimEvent (σ : Type) where
  /-- `SshRead` returned these bytes, to this keyboard. -/
  | pulled (bytes : Bytes) (kb : Keyboard)
  /-- `SshWrite` was called and returned 0 (`ok`) or -1. -/
  | wrote (bytes : Bytes) (ok : Bool)
  /-- `Disconnected` was set because a call that took the connection from `before` to
  `after` failed; `notify` are the functions registered then. -/
  | gone (source : LossSource) (before after : σ) (notify : NotifyTable)
  /-- A registered function was called. -/
  | notified (fn : ℕ) (kd : KeyData)
  /-- `PushKeyData` found the ring full. -/
  | dropped (kd : KeyData)
  /-- `PopKey` returned this key. -/
  | returned (kd : KeyData)
  /-- An escape sequence was given up after the timeout. -/
  | escTimeout
  /-- `PumpInput` returned. -/
  | pumped
  /-- The input side was reset. -/
  | inputReset
  /-- `Flush` emptied the buffer of these bytes. -/
  | flushed (bytes : Bytes)
  /-- Text went to the real screen. -/
  | mirrored (text : List UInt16)
  /-- `RtTicks` was called. -/
  | ticks
  /-- The local keyboard was read or its event checked. -/
  | askedLocal
  /-- The event of `WaitForKey` was signalled. -/
  | signalled

/-- What the firmware answers. -/
structure Firmware (σ : Type) where
  ticks : List (ShimEvent σ) → UInt64
  hasConIn : Bool
  hasConOut : Bool
  hasWaitForKey : Bool
  localKey : List (ShimEvent σ) → EfiStatus × InputKey
  localReady : List (ShimEvent σ) → Bool

/-- The connection and the input side. -/
structure Shim (σ : Type) where
  host : σ
  keyboard : Keyboard
  disconnected : Bool
  log : List (ShimEvent σ)

/-- `SIMPLE_TEXT_OUTPUT_MODE`, less `MaxMode`. -/
structure TextMode where
  mode : Int32
  textAttribute : Int32
  cursorColumn : Int32
  cursorRow : Int32
  cursorVisible : Bool
  deriving DecidableEq

structure Screen where
  mode : TextMode
  cols : UInt32
  rows : UInt32
  pendingWrap : Bool
  deriving DecidableEq

/-- `CONSOLE_SHIM`.  `outBuf` is `OutBuf[0 .. OutLen)`. -/
structure Console (σ : Type) extends Shim σ where
  screen : Screen
  outBuf : Bytes
  outPoll : UInt64

variable {σ : Type}

abbrev ShimM (σ : Type) := Program Stop (Shim σ)
abbrev ConsoleM (σ : Type) := Program Stop (Console σ)

namespace ShimM

/-- A call on the connection. -/
def call {α : Type} (m : Program Stop σ α) : ShimM σ α :=
  zoom Shim.host (fun h s => { s with host := h }) m

def record (e : ShimEvent σ) : ShimM σ Unit := modify fun s => { s with log := e :: s.log }

/-- `Disconnected = TRUE`, after a call on `before`. -/
def lose (source : LossSource) (before : σ) : ShimM σ Unit := modify fun s =>
  { s with
    disconnected := true
    log := .gone source before s.host s.keyboard.notify :: s.log }

end ShimM

open ShimM

/-! ## Notify functions -/

def notifyMatches (reg kd : KeyData) : Bool :=
  reg.key = kd.key &&
    (reg.keyShiftState &&& efiShiftStateValid = 0 ||
      reg.keyShiftState &&& ~~~efiShiftStateValid = kd.keyShiftState &&& ~~~efiShiftStateValid)

/-- The functions `FireNotify` calls, in the order of the table. -/
def matching (notify : NotifyTable) (kd : KeyData) : List ℕ :=
  (List.finRange shimMaxNotify).filterMap fun i =>
    if (notify i).used ∧ notifyMatches (notify i).key kd then (notify i).fn else none

def fireNotify (kd : KeyData) (s : Shim σ) : Shim σ :=
  { s with log := ((matching s.keyboard.notify kd).map (.notified · kd)).reverse ++ s.log }

/-! ## The key ring -/

def keysEmpty (s : Shim σ) : Bool := s.keyboard.keys.isEmpty

def pushKeyData (kd : KeyData) (s : Shim σ) : Shim σ :=
  let s := fireNotify kd s
  if s.keyboard.keys.isFull then { s with log := .dropped kd :: s.log }
  else { s with keyboard := { s.keyboard with keys := s.keyboard.keys.push kd } }

def pushKey (k : InputKey) (s : Shim σ) : Shim σ :=
  if isControl k then pushKeyData (keyData k) (fireNotify (letterForm k) s)
  else pushKeyData (keyData k) s

/-- `PushKey` on one key after the other. -/
def pushKeys (ks : List InputKey) (s : Shim σ) : Shim σ := ks.foldl (fun s k => pushKey k s) s

/-- The two keys of `FireBreak`. -/
def breakKey (ch : UInt16) : KeyData :=
  ⟨⟨scanNull, ch⟩, efiShiftStateValid ||| efiLeftControlPressed, 0⟩

def fireBreak (s : Shim σ) : Shim σ :=
  fireNotify (breakKey (byteOf 'c').toUInt16) (fireNotify (breakKey 3) s)

/-- What `InjectExit` types. -/
def exitKeys : List InputKey :=
  ((ascii "exit").map fun b => charKey b.toUInt16) ++ [charKey charCarriageReturn]

def injectExit (s : Shim σ) : Shim σ :=
  if keysEmpty s = false ∨ s.keyboard.exitInjects ≥ shimExitInjectMax then s
  else
    pushKeys exitKeys
      { s with keyboard := { s.keyboard with exitInjects := s.keyboard.exitInjects + 1 } }

/-! ## Feeding the decoder -/

/-- `EscTick = RtTicks()`. -/
def setEscTick (fw : Firmware σ) (s : Shim σ) : Shim σ :=
  { s with
    keyboard := { s.keyboard with escTick := fw.ticks s.log }
    log := .ticks :: s.log }

def feed (fw : Firmware σ) (b : UInt8) (s : Shim σ) : Shim σ :=
  let fed := feedByte s.keyboard.decoder b
  let t := pushKeys fed.2 { s with keyboard := { s.keyboard with decoder := fed.1 } }
  if startsEsc s.keyboard.decoder b then setEscTick fw t else t

/-- `FeedByte` on one byte after the other. -/
def feedAll (fw : Firmware σ) (bytes : Bytes) (s : Shim σ) : Shim σ :=
  bytes.foldl (fun s b => feed fw b s) s

/-- An escape that never completed: the ESC key, and the rest as plain bytes. -/
def flushEsc (fw : Firmware σ) (s : Shim σ) : Shim σ :=
  feedAll fw (s.keyboard.decoder.esc.drop 1)
    (pushKey escKey
      { s with
        keyboard := { s.keyboard with decoder := { s.keyboard.decoder with esc := [] } }
        log := .escTimeout :: s.log })

/-- The end of `PumpInput`. -/
def checkEsc (fw : Firmware σ) (s : Shim σ) : Shim σ :=
  if s.keyboard.decoder.esc = [] then s
  else
    let t := { s with log := .ticks :: s.log }
    if fw.ticks s.log - s.keyboard.escTick > escTimeoutTicks then flushEsc fw t else t

/-! ## `PumpInput` -/

/-- The loop of `PumpInput`; `false` when it found the client gone. -/
def pumpRounds (ssh : Ssh σ) (fw : Firmware σ) : ℕ → ShimM σ Bool
  | 0 => throw .running
  | rounds + 1 => do
      let before ← get
      match ← call (ssh.read pumpBuf) with
      | none =>
          lose .read before.host
          modify fireBreak
          modify injectExit
          return false
      | some bytes =>
          record (.pulled bytes before.keyboard)
          modify (feedAll fw bytes)
          if bytes.length < pumpBuf then return true else pumpRounds ssh fw rounds

def pumpInput (ssh : Ssh σ) (fw : Firmware σ) (rounds : ℕ) : ShimM σ Unit := do
  if (← get).disconnected then modify injectExit
  else if ← pumpRounds ssh fw rounds then modify (checkEsc fw)
  record .pumped

/-! ## `SimpleTextIn` and `SimpleTextInEx` -/

def popKey : ShimM σ (Option KeyData) := do
  let s ← get
  if keysEmpty s then return none
  let kd := s.keyboard.keys.cells s.keyboard.keys.tail
  modify fun s =>
    { s with
      keyboard := { s.keyboard with keys := s.keyboard.keys.pop }
      log := .returned kd :: s.log }
  return some kd

/-- The status, and the key data when there is one. -/
def readCommon (ssh : Ssh σ) (fw : Firmware σ) (rounds : ℕ) :
    ShimM σ (EfiStatus × Option KeyData) := do
  pumpInput ssh fw rounds
  match ← popKey with
  | some kd => return (efiSuccess, some kd)
  | none =>
      let s ← get
      if s.disconnected = true ∧ fw.hasConIn = true then
        record .askedLocal
        let (status, key) := fw.localKey s.log
        return (status, some ⟨key, 0, 0⟩)
      else return (efiNotReady, none)

/-- `ShimReadKey`: the key only if the status is no error. -/
def shimReadKey (ssh : Ssh σ) (fw : Firmware σ) (rounds : ℕ) :
    ShimM σ (EfiStatus × Option InputKey) := do
  let (status, kd) ← readCommon ssh fw rounds
  return (status, if status &&& 0x8000000000000000 = 0 then kd.map KeyData.key else none)

/-- `given` is whether `KeyData` is not `NULL`. -/
def shimReadKeyEx (ssh : Ssh σ) (fw : Firmware σ) (rounds : ℕ) (given : Bool) :
    ShimM σ (EfiStatus × Option KeyData) := do
  if given then readCommon ssh fw rounds else return (efiInvalidParameter, none)

/-- `ShimInReset`, and `ShimInResetEx`, which calls it. -/
def shimInReset : ShimM σ EfiStatus := do
  modify fun s =>
    { s with
      keyboard :=
        { s.keyboard with
          keys := { s.keyboard.keys with
            head := ⟨0, shimKeyRing_pos⟩
            tail := ⟨0, shimKeyRing_pos⟩ }
          decoder := { s.keyboard.decoder with esc := [], utf8Need := 0 } }
      log := .inputReset :: s.log }
  return efiSuccess

/-- The first slot that is not in use. -/
def freeSlot (notify : NotifyTable) : Option (Fin shimMaxNotify) :=
  (List.finRange shimMaxNotify).find? fun i => !(notify i).used

def setNotify (i : Fin shimMaxNotify) (n : Notify) (s : Shim σ) : Shim σ :=
  { s with keyboard := { s.keyboard with notify := Function.update s.keyboard.notify i n } }

/-- Arguments that are `NULL` are `none`, `wanted` is whether `NotifyHandle` is not; the
handle is the slot. -/
def shimRegisterNotify (kd : Option KeyData) (fn : Option ℕ) (wanted : Bool) :
    ShimM σ (EfiStatus × Option (Fin shimMaxNotify)) := do
  match kd, fn, wanted with
  | some kd, some fn, true =>
      match freeSlot (← get).keyboard.notify with
      | some i =>
          modify (setNotify i ⟨kd, some fn, true⟩)
          return (efiSuccess, some i)
      | none => return (efiOutOfResources, none)
  | _, _, _ => return (efiInvalidParameter, none)

/-- `none` is a handle that points to no slot. -/
def shimUnregisterNotify (handle : Option (Fin shimMaxNotify)) : ShimM σ EfiStatus := do
  match handle with
  | some i =>
      let n := (← get).keyboard.notify i
      if n.used then
        modify (setNotify i { n with fn := none, used := false })
        return efiSuccess
      else return efiInvalidParameter
  | none => return efiInvalidParameter

/-- The notify function of `WaitForKey` and `WaitForKeyEx`. -/
def shimWaitKeyNotify (ssh : Ssh σ) (fw : Firmware σ) (rounds : ℕ) : ShimM σ Unit := do
  pumpInput ssh fw rounds
  let s ← get
  if keysEmpty s = false then record .signalled
  else if s.disconnected = true ∧ fw.hasConIn = true ∧ fw.hasWaitForKey = true then
    record .askedLocal
    if fw.localReady s.log then record .signalled

end EfiSshServer
