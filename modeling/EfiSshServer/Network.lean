import EfiSshServer.Lib.Requests
import EfiSshServer.Transport
import EfiSshServer.WallClock

/-!
# The sockets of `net.c`

`Transport.lean` has the bytes that `NetRead` hands out.  Here is what is around them: the
listener, the connection that `NetAccept` makes and `NetCloseConn` ends, and the tokens with
which the driver is asked.  A token has an event, and the driver writes to both until the
token is answered.

What the driver and the firmware do is a `TcpFirmware`: functions of the log, so that each
call can have any outcome.  An answer that delivers no pointer counts as an error.
-/

namespace EfiSshServer

open StateProgram

def efiNoMapping : EfiStatus := efiErr 17

/-! ## State -/

/-- The completion tokens of `net.c`; all but the one of the receive are on the stack. -/
inductive Token where
  | accept | receive | transmit | close
  deriving DecidableEq

inductive TcpEvent where
  /-- `CreateEvent` for a token, and `CloseEvent`. -/
  | eventMade (tok : Token)
  | eventClosed (tok : Token)
  /-- The driver took the token; `data` is that of a `Transmit`. -/
  | submitted (tok : Token) (data : Bytes)
  /-- The event was found signaled: `Status`, and `NewChildHandle` if there is one. -/
  | signaled (tok : Token) (st : EfiStatus) (child : Option EfiHandle)
  | cancelled (tok : Token)
  /-- A wait for the event came to its end. -/
  | timedOut (tok : Token)
  /-- `CreateChild` and `DestroyChild`. -/
  | childMade (handle : EfiHandle)
  | childDestroyed (handle : EfiHandle)
  /-- `NetRead` returned; `RxPosted` of an open connection. -/
  | readDone (posted : Bool)
  /-- A call failed, or did nothing that matters here. -/
  | refused
  | polled
  | unsignaled (tok : Token)
  | stalled
  deriving DecidableEq

/-- The statics of `net.c` and a `NET_CONN`; the part of `NetRead` is a `Net`. -/
structure Network extends Net where
  /-- `mSb` is not `NULL`, and `mListen`. -/
  serviceBinding : Bool
  listening : Bool
  listenHandle : Option EfiHandle
  /-- `mLocalIn` is not `NULL`. -/
  localIn : Bool
  /-- `NewChildHandle` of the token of `NetAccept`. -/
  newChild : Option EfiHandle
  handle : Option EfiHandle
  /-- The event of `RxTok` is not `NULL`. -/
  rxEvent : Bool
  remote : Option (UInt32 × UInt16)
  events : List TcpEvent

structure TcpFirmware where
  /-- The driver as `NetRead` and `Poll` find it. -/
  driver : List TcpEvent → TcpDriver
  locateProtocol : List TcpEvent → EfiStatus
  createChild : List TcpEvent → EfiStatus × EfiHandle
  openProtocol : List TcpEvent → EfiStatus
  configure : List TcpEvent → EfiStatus
  createEvent : List TcpEvent → EfiStatus
  /-- `Accept`, `Transmit` and `Close`. -/
  submit : Token → List TcpEvent → EfiStatus
  /-- `Status` of a token, once its event is signaled. -/
  checkEvent : Token → List TcpEvent → Option EfiStatus
  newChild : List TcpEvent → EfiHandle
  /-- `RemoteAddress` and `RemotePort`, unless `GetModeData` fails. -/
  modeData : List TcpEvent → Option (UInt32 × UInt16)
  /-- The keys that `ConIn` gives before it has none left. -/
  localKeys : List TcpEvent → List InputKey
  hasConIn : Bool
  getTime : List TcpEvent → Option EfiTime

/-- A call of `net.c`; the two that can wait forever are bounded by rounds. -/
abbrev NetworkM := Program Empty Network

namespace Network

def record (e : TcpEvent) : NetworkM Unit := modify fun s => { s with events := e :: s.events }

/-- A program of `Transport.lean`. -/
def onNet {α : Type} (m : NetM α) : NetworkM α :=
  zoom Network.toNet (fun net s => { s with toNet := net }) m

def setConn (f : NetConn → NetConn) : NetworkM Unit :=
  modify fun s => { s with conn := f s.conn }

/-! ## Events and tokens -/

section Calls

variable (fw : TcpFirmware)

/-- `NetLocalAbortRequested`. -/
def localAbortRequested : NetworkM Bool := do
  let s ← get
  if s.localIn = false then return false
  return (fw.localKeys s.events).any fun k =>
    k.scanCode = scanEsc || k.unicodeChar = 'q'.toNat.toUInt16 ||
      k.unicodeChar = 'Q'.toNat.toUInt16

/-- `MakeEvent`. -/
def makeEvent (tok : Token) : NetworkM EfiStatus := do
  let st := fw.createEvent (← get).events
  if efiError st then record .refused else record (.eventMade tok)
  return st

def closeEvent (tok : Token) : NetworkM Unit := record (.eventClosed tok)

/-- `Accept`, `Transmit` and `Close` of the driver. -/
def submit (tok : Token) (data : Bytes) : NetworkM EfiStatus := do
  let st := fw.submit tok (← get).events
  if efiError st then record .refused else record (.submitted tok data)
  return st

/-- `CheckEvent`: `Status` of the token if its event is signaled. -/
def checkEvent (tok : Token) : NetworkM (Option EfiStatus) := do
  let events := (← get).events
  match fw.checkEvent tok events with
  | none =>
      record (.unsignaled tok)
      return none
  | some st =>
      let child := if tok = .accept ∧ efiError st = false then some (fw.newChild events) else none
      record (.signaled tok st child)
      if tok = .accept then modify fun s => { s with newChild := child }
      return some st

def stall : NetworkM Unit := record .stalled

/-- `Poll` of the connection; it can fill a posted buffer. -/
def poll : NetworkM Unit := do
  onNet (netPoll (fw.driver (← get).events))
  record .polled

/-- The loop of `WaitToken` from `spins` on. -/
def waitRounds (tok : Token) (start timeoutMs : UInt64) : (rounds : ℕ) → (spins : UInt64) →
    NetworkM (Option EfiStatus)
  | 0, _ => return none
  | rounds + 1, spins => do
      poll fw
      match ← checkEvent fw tok with
      | some st => return some st
      | none =>
          stall
          if rtTimedOutAt (fw.getTime (← get).events) start (spins + 1) 100 timeoutMs then
            record (.timedOut tok)
            return some efiTimeout
          waitRounds tok start timeoutMs rounds (spins + 1)

/-- `WaitToken`; all its callers set a limit, which more spins than these exceed. -/
def waitToken (tok : Token) (timeoutMs : UInt64) : NetworkM EfiStatus := do
  let start := rtNowOf (fw.getTime (← get).events)
  match ← waitRounds fw tok start timeoutMs (40 * timeoutMs.toNat + 1) 0 with
  | some st => return st
  | none => return efiTimeout

/-! ## The listener -/

def destroyChild : Option EfiHandle → NetworkM Unit
  | none => return ()
  | some h => do if (← get).serviceBinding then record (.childDestroyed h)

def netListenStop : NetworkM Unit := do
  if (← get).listening then record .refused
  destroyChild (← get).listenHandle
  modify fun s => { s with listening := false, listenHandle := none }

/-- The tries to configure the listener while there is no address. -/
def configureRounds : ℕ → NetworkM EfiStatus
  | 0 => return efiNoMapping
  | tries + 1 => do
      let st := fw.configure (← get).events
      record .refused
      if st ≠ efiNoMapping then return st
      if ← localAbortRequested fw then return efiAborted
      stall
      configureRounds tries

def openProtocol : NetworkM EfiStatus := do
  let st := fw.openProtocol (← get).events
  record .refused
  return st

/-- `NetListenStart`; the port only goes to the driver. -/
def netListenStart : NetworkM EfiStatus := do
  modify fun s => { s with localIn := fw.hasConIn }
  let st := fw.locateProtocol (← get).events
  record .refused
  if efiError st then
    modify fun s => { s with serviceBinding := false }
    return efiNotFound
  modify fun s => { s with serviceBinding := true, listenHandle := none }
  let (st, h) := fw.createChild (← get).events
  if efiError st then
    record .refused
    return st
  record (.childMade h)
  modify fun s => { s with listenHandle := some h }
  let st ← openProtocol fw
  if efiError st then
    destroyChild (some h)
    modify fun s => { s with listenHandle := none }
    return st
  modify fun s => { s with listening := true }
  let st ← configureRounds fw 240
  if efiError st then
    netListenStop
    return st
  return efiSuccess

/-! ## The connection -/

/-- The beginning of `NetCloseConn`. -/
def cancelReceive : NetworkM Unit := do
  if (← get).conn.rxPosted then
    record (.cancelled .receive)
    let _ ← waitToken fw .receive 500
    setConn fun c => { c with rxPosted := false }

/-- The `Close` of `NetCloseConn`. -/
def closeTcp : NetworkM Unit := do
  if (← get).conn.closed = false then
    let made ← makeEvent fw .close
    if efiError made = false then
      let taken ← submit fw .close []
      if efiError taken = false then
        let _ ← waitToken fw .close 3000
      closeEvent .close
    setConn fun c => { c with closed := true }

def closeRxEvent : NetworkM Unit := do
  if (← get).rxEvent then
    closeEvent .receive
    modify fun s => { s with rxEvent := false }

def netCloseConn : NetworkM Unit := do
  if (← get).conn.tcp = false then return ()
  cancelReceive fw
  closeTcp fw
  closeRxEvent
  destroyChild (← get).handle
  setConn fun c => { c with tcp := false }
  modify fun s => { s with handle := none }

/-- The loop behind the `Cancel` of `NetAccept`. -/
def cancelRounds : ℕ → NetworkM Unit
  | 0 => record (.timedOut .accept)
  | rounds + 1 => do
      record .polled
      match ← checkEvent fw .accept with
      | some _ => return ()
      | none =>
          stall
          cancelRounds rounds

/-- What ends the wait of `NetAccept`. -/
inductive Awaited where
  | running
  | aborted
  | completed (st : EfiStatus)

def awaitClient : ℕ → NetworkM Awaited
  | 0 => return .running
  | rounds + 1 => do
      record .polled
      match ← checkEvent fw .accept with
      | some st => return .completed st
      | none =>
          if ← localAbortRequested fw then
            record (.cancelled .accept)
            cancelRounds fw 100
            return .aborted
          stall
          awaitClient rounds

/-- `NetAccept` once it has a client. -/
def takeChild : NetworkM EfiStatus := do
  modify fun s => { s with
    toNet := ⟨{ acceptedConn with tcp := false }, []⟩
    handle := s.newChild
    rxEvent := false
    remote := none }
  let st ← openProtocol fw
  if efiError st then
    destroyChild (← get).handle
    modify fun s => { s with handle := none }
    return st
  setConn fun c => { c with tcp := true }
  modify fun s => { s with remote := fw.modeData s.events }
  let st ← makeEvent fw .receive
  if efiError st then
    netCloseConn fw
    return st
  modify fun s => { s with rxEvent := true }
  return efiSuccess

/-- `none` while it waits. -/
def netAccept (rounds : ℕ) : NetworkM (Option EfiStatus) := do
  let st ← makeEvent fw .accept
  if efiError st then return some st
  let st ← submit fw .accept []
  if efiError st then
    closeEvent .accept
    return some st
  match ← awaitClient fw rounds with
  | .running => return none
  | .aborted =>
      closeEvent .accept
      return some efiAborted
  | .completed st =>
      closeEvent .accept
      if efiError st then return some st
      return some (← takeChild fw)

/-! ## The callbacks -/

def netRead (max : ℕ) : NetworkM (Int × Bytes) := do
  let out ← onNet (EfiSshServer.netRead (fw.driver (← get).events) max)
  let conn := (← get).conn
  record (.readDone (conn.tcp && conn.rxPosted))
  return out

/-- The wait for a `Transmit`, with a `Cancel` if it takes too long. -/
def finishTransmit : NetworkM EfiStatus := do
  let st ← waitToken fw .transmit 30000
  if st = efiTimeout then
    record (.cancelled .transmit)
    let _ ← waitToken fw .transmit 1000
  return st

/-- One round of the loop in `NetWrite`: 0 or -1. -/
def transmitChunk (chunk : Bytes) : NetworkM Int := do
  if efiError (← makeEvent fw .transmit) then return -1
  let posted ← submit fw .transmit chunk
  let st ← if efiError posted then pure posted else finishTransmit fw
  closeEvent .transmit
  if efiError st then
    setConn fun c => { c with closed := true }
    return -1
  return 0

/-- Each round takes a byte at least, so the length of the buffer is enough rounds. -/
def transmitFrom : ℕ → Bytes → NetworkM Int
  | 0, _ => return 0
  | _ + 1, [] => return 0
  | rounds + 1, buf => do
      if (← transmitChunk fw (buf.take 8192)) < 0 then return -1
      transmitFrom rounds (buf.drop 8192)

def netWrite (buf : Bytes) : NetworkM Int := do
  let conn := (← get).conn
  if !conn.tcp || conn.closed then return -1
  transmitFrom fw buf.length buf

end Calls

/-! ## Runs -/

/-- The statics when the image starts, and the zeroed `NET_CONN`. -/
def zero : Network where
  conn := { acceptedConn with tcp := false }
  log := []
  serviceBinding := false
  listening := false
  listenHandle := none
  localIn := false
  newChild := none
  handle := none
  rxEvent := false
  remote := none
  events := []

end Network

open Network

inductive SocketCall where
  | listenStart
  | accept (rounds : ℕ)
  | read (max : ℕ)
  | write (buf : Bytes)
  | closeConn
  | listenStop

/-- `EfiMain` starts the listener once, and accepts when the last connection is closed. -/
def SocketCall.InOrder (s : Network) : SocketCall → Prop
  | .listenStart => s.listening = false ∧ s.conn.tcp = false
  | .accept _ => s.listening = true ∧ s.conn.tcp = false
  | _ => True

instance (s : Network) : DecidablePred (SocketCall.InOrder s)
  | .listenStart | .accept _ => inferInstanceAs (Decidable (_ ∧ _))
  | .read _ | .write _ | .closeConn | .listenStop => .isTrue trivial

/-- `false` while the call waits. -/
def socketCall (fw : TcpFirmware) : SocketCall → NetworkM Bool
  | .listenStart => do
      let _ ← netListenStart fw
      return true
  | .accept rounds => return (← netAccept fw rounds).isSome
  | .read max => do
      let _ ← Network.netRead fw max
      return true
  | .write buf => do
      let _ ← Network.netWrite fw buf
      return true
  | .closeConn => do
      netCloseConn fw
      return true
  | .listenStop => do
      netListenStop
      return true

/-- The states between the calls of `net.c`. -/
inductive SocketRuns (fw : TcpFirmware) : Network → Prop
  | start : SocketRuns fw Network.zero
  | call {s t : Network} (h : SocketRuns fw s) (call : SocketCall) (horder : call.InOrder s)
      (hrun : socketCall fw call s = .ok (true, t)) : SocketRuns fw t

end EfiSshServer
