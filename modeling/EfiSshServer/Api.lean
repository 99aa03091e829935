import EfiSshServer.Input

/-!
# The public API

`SshNew`, `SshPoll`, `SshAccept`, `SshRead`, `SshWrite` and `SshClose`.  The last
four and the first loop as long as the client and the clock let them, so
`sshAccept`, `sshWrite` and `sshClose` take the number of rounds to run and
answer `none` when the call has not returned by then: the state reached is one
inside the call.
-/

namespace EfiSshServer

open StateProgram RingBuffer ServerM

/-! ## Clock -/

def rtNow (E : Env) : LinkM ℕ := LinkM.ask .clock E.clock

def wallClockPassed (E : Env) (startSec limitMs : ℕ) : LinkM Bool := do
  let now ← rtNow E
  return now ≠ 0 && now > startSec && (now - startSec) * 1000 > limitMs + 1000

def rtTimedOut (E : Env) (startSec spins usPerSpin limitMs : ℕ) : LinkM Bool := do
  if startSec ≠ 0 ∧ spins % 64 = 0 then
    if ← wallClockPassed E startSec limitMs then return true
    return spins * usPerSpin > limitMs * 1000 * 4
  else return spins * usPerSpin > limitMs * 1000 * 4

/-! ## `SshNew` -/

/-- The zeroed `SSH_CONN` with the fields `SshNew` sets. -/
def newConn (hostSeed hostPub : Bytes) : Conn where
  hostSeed := hostSeed
  hostPub := hostPub
  state := .version
  kex := .idle
  versionSent := false
  clientVersion := []
  kx := {
    clientKexInit := none
    serverKexInit := none
    kexInitSent := false
    ignoreNextKexPacket := false
    nextEncKeyLenIn := 0
    nextEncKeyLenOut := 0
    nextMacTypeIn := .sha256
    nextMacTypeOut := .sha256
    sessionId := none }
  inDir := ⟨⟨[], [], 0⟩, List.replicate 64 0, .sha256, false, 0⟩
  outDir := ⟨⟨[], [], 0⟩, List.replicate 64 0, .sha256, false, 0⟩
  pend := ⟨List.replicate 32 0, List.replicate 16 0, List.replicate 64 0, 0, .sha256⟩
  inRing := ⟨fun _ => 0, ⟨0, sshInRing_pos⟩, ⟨0, sshInRing_pos⟩⟩
  consumed := 0
  chan := {
    chanOpen := false
    remoteChan := 0
    remoteWindow := 0
    remoteMaxPkt := 0
    shellReady := false
    remoteEof := false
    closeSent := false
    closeRecv := false
    cols := 80
    rows := 25 }
  login := ⟨false, 0, []⟩

@[simp] theorem ringEmpty_newConn (hostSeed hostPub : Bytes) :
    ringEmpty (newConn hostSeed hostPub) = true := by
  rw [ringEmpty, Ring.isEmpty_iff, Ring.count_eq, newConn]
  rfl

/-- A call whose failure makes `SshNew` return `NULL`. -/
def require (call : Call) (answer : List Call → Bool) : StateT (List Call) Option Unit := do
  let calls ← get
  set (call :: calls)
  guard (answer calls)

/-- The calls of `SshNew`; the size of `SSH_CONN` itself does not matter here. -/
def sshNewCalls (E : Env) (connSize : ℕ) : StateT (List Call) Option Unit := do
  require (.alloc connSize) (E.alloc · connSize)
  require (.alloc sshRxBuf) (E.alloc · sshRxBuf)
  require (.alloc sshTxBuf) (E.alloc · sshTxBuf)
  require (.alloc sshPlBuf) (E.alloc · sshPlBuf)
  require (.alloc sshInRing) (E.alloc · sshInRing)
  require .initRng E.initRngOk
  require .loadHostKey E.loadHostKeyOk
  require .aesInit E.aesInitOk
  require .aesInit E.aesInitOk

/-- `none` when `SshNew` returns `NULL`. -/
def sshNew (E : Env) (connSize : ℕ) (hostSeed : Bytes) (calls : List Call)
    (input : List ReadResult) : Option Server := do
  let ((), calls) ← sshNewCalls E connSize calls
  return {
    link := {
      conn := newConn hostSeed (E.hostPublic hostSeed).toList
      log := []
      calls := calls }
    rx := ⟨[], false, 0⟩
    input := input }

/-! ## `SshPoll` and `SshAccept` -/

def sshPoll (E : Env) : ServerM Int := do
  return (← processInput E).1

/-- Send the version line once: 0, or -1 when the transport refuses it. -/
def sendVersion (E : Env) : LinkM Int := do
  if (← LinkM.conn).versionSent then return 0
  let line := ascii sshServerVersion ++ [cr, lf]
  if !(← LinkM.ask (.write line) (E.wr · line)) then
    LinkM.update fun c => { c with state := .closed }
    return -1
  LinkM.record fun _ => .versionSent line
  LinkM.update fun c => { c with versionSent := true }
  return 0

def acceptRounds (E : Env) : ℕ → (start idle : ℕ) → ServerM (Option Int)
  | 0, _, _ => return none
  | rounds + 1, start, idle => do
      if (← conn).state = .closed then return some (-1)
      let (ret, progressed) ← processInput E
      if ret < 0 then return some (-1)
      if (← conn).chan.shellReady then
        onLink (LinkM.record fun _ => .accepted)
        return some 0
      if progressed then acceptRounds E rounds (← onLink (rtNow E)) 0
      else if ← onLink (rtTimedOut E start (idle + 1) 1000 sshAcceptTimeoutMs) then
        onLink (disconnect E discByApplication "handshake timeout")
        return some (-1)
      else acceptRounds E rounds start (idle + 1)

def sshAccept (E : Env) (rounds : ℕ) : ServerM (Option Int) := do
  let start ← onLink (rtNow E)
  if (← onLink (sendVersion E)) ≠ 0 then return some (-1)
  acceptRounds E rounds start 0

/-! ## `SshRead` -/

def windowAdjustPayload (remoteChan consumed : UInt32) : Bytes :=
  (((wInit sshPlBuf).wByte msgChannelWindowAdjust).wU32 remoteChan |>.wU32 consumed).data

@[simp] theorem msgOf_windowAdjustPayload (remoteChan consumed : UInt32) :
    msgOf (windowAdjustPayload remoteChan consumed) = msgChannelWindowAdjust := by
  rw [windowAdjustPayload]
  exact msgOf_data (WBuf.first_wU32 (WBuf.first_wU32 (first_message _) _) _)

/-- `SSH_LOCAL_WINDOW / 2`. -/
def halfWindow : UInt32 := UInt32.ofNat (sshLocalWindow / 2)

/-- The credit part of `SshRead`. -/
def returnCredit (E : Env) : LinkM Unit := do
  let c ← LinkM.conn
  if c.consumed ≥ halfWindow ∧ canSendNow c = true then
    if (← sendPacket E (windowAdjustPayload c.chan.remoteChan c.consumed)) = 0 then
      LinkM.update fun c => { c with consumed := 0 }

/-- `SshRead` behind its poll: the value returned and the bytes in `buf`. -/
def takeInput (E : Env) (max : ℕ) : LinkM (Int × Bytes) := do
  let c ← LinkM.conn
  if ringEmpty c then
    if c.state = .closed ∨ c.chan.closeRecv = true ∨ c.chan.remoteEof = true ∨
        c.chan.chanOpen = false then
      LinkM.record .readEnd
      return (-1, [])
    return (0, [])
  let taken := (c.inRing.popUpTo max).1
  LinkM.record fun c => .popped taken c
  LinkM.update fun c =>
    { c with
      inRing := (c.inRing.popUpTo max).2
      consumed := c.consumed + UInt32.ofNat taken.length }
  returnCredit E
  return (taken.length, taken)

def sshRead (E : Env) (max : ℕ) : ServerM (Int × Bytes) := do
  let _ ← processInput E
  onLink (takeInput E max)

/-! ## `SshWrite` -/

/-- The condition of the inner wait of `SshWrite`. -/
def mustWait (c : Conn) : Bool :=
  c.state = .conn && c.chan.chanOpen && !c.chan.closeSent && !c.chan.closeRecv &&
    (!canSendNow c || c.chan.remoteWindow = 0)

def chunkLen (c : Conn) (len : ℕ) : ℕ :=
  min (min (min len c.chan.remoteWindow.toNat) c.chan.remoteMaxPkt.toNat) sshDataChunk

def channelDataPayload (remoteChan : UInt32) (data : Bytes) : WBuf :=
  ((wInit sshPlBuf).wByte msgChannelData).wU32 remoteChan |>.wStr data

@[simp] theorem msgOf_channelDataPayload (remoteChan : UInt32) (data : Bytes) :
    msgOf (channelDataPayload remoteChan data).data = msgChannelData := by
  rw [channelDataPayload]
  exact msgOf_data (WBuf.first_wStr (WBuf.first_wU32 (first_message _) _) _)

/-- Send one chunk: `none` when `SshWrite` returns -1, otherwise what is left. -/
def writeChunk (E : Env) (buf : Bytes) : LinkM (Option Bytes) := do
  let c ← LinkM.conn
  if canSendNow c = false ∨ c.chan.closeRecv = true ∨ c.chan.remoteWindow = 0 then return none
  let chunk := chunkLen c buf.length
  let b := channelDataPayload c.chan.remoteChan (buf.take chunk)
  if b.err then return none
  if (← sendPacket E b.data) ≠ 0 then return none
  updateChan fun ch => { ch with remoteWindow := ch.remoteWindow - UInt32.ofNat chunk }
  return some (buf.drop chunk)

/-- Both loops of `SshWrite`: a round is one test of the inner wait, followed by a
poll or, when there is nothing to wait for, by sending a chunk. -/
def writeRounds (E : Env) : ℕ → (start waited : ℕ) → Bytes → ServerM (Option Int)
  | 0, _, _, _ => return none
  | rounds + 1, start, waited, buf => do
      if mustWait (← conn) then
        let (ret, progressed) ← processInput E
        if ret < 0 then return some (-1)
        if progressed then writeRounds E rounds start waited buf
        else if ← onLink (rtTimedOut E start (waited + 1) 1000 sshWriteTimeoutMs) then
          return some (-1)
        else writeRounds E rounds start (waited + 1) buf
      else
        match ← onLink (writeChunk E buf) with
        | none => return some (-1)
        | some [] => return some 0
        | some rest => writeRounds E rounds (← onLink (rtNow E)) 0 rest

def sshWrite (E : Env) (rounds : ℕ) (buf : Bytes) : ServerM (Option Int) := do
  if buf = [] then return some 0
  writeRounds E rounds (← onLink (rtNow E)) 0 buf

/-! ## `SshClose` -/

def exitStatusPayload (remoteChan exitStatus : UInt32) : Bytes :=
  (((wInit sshPlBuf).wByte msgChannelRequest).wU32 remoteChan
    |>.wCStr "exit-status" |>.wByte 0 |>.wU32 exitStatus).data

@[simp] theorem msgOf_exitStatusPayload (remoteChan exitStatus : UInt32) :
    msgOf (exitStatusPayload remoteChan exitStatus) = msgChannelRequest := by
  rw [exitStatusPayload]
  refine msgOf_data ?_
  apply WBuf.first_wU32
  apply WBuf.first_wByte
  apply WBuf.first_wCStr
  apply WBuf.first_wU32
  exact first_message _

/-- The close handshake of `SshClose` up to its wait. -/
def startClose (E : Env) (exitStatus : UInt32) : LinkM Unit := do
  LinkM.record .closing
  let _ ← sendPacket E (exitStatusPayload (← LinkM.conn).chan.remoteChan exitStatus)
  let _ ← sendChannelReply E msgChannelEof
  let _ ← sendChannelReply E msgChannelClose
  updateChan fun ch => { ch with closeSent := true }

/-- The wait for the client's close; `false` while it is still running. -/
def closeRounds (E : Env) : ℕ → (start waited : ℕ) → ServerM Bool
  | 0, _, _ => return false
  | rounds + 1, start, waited => do
      let c ← conn
      if c.state = .closed ∨ c.chan.closeRecv = true then return true
      let (ret, progressed) ← processInput E
      if ret < 0 then return true
      if progressed then closeRounds E rounds start waited
      else if ← onLink (rtTimedOut E start (waited + 1) 1000 sshCloseTimeoutMs) then return true
      else closeRounds E rounds start (waited + 1)

def endSession (E : Env) : LinkM Unit := do
  if (← LinkM.conn).state = .closed then return
  disconnect E discByApplication "session ended"

/-- `none` while the call has not returned. -/
def sshClose (E : Env) (rounds : ℕ) (exitStatus : UInt32) : ServerM (Option Unit) := do
  let c ← conn
  if c.state = .conn ∧ c.chan.chanOpen = true ∧ c.chan.closeSent = false then
    onLink (startClose E exitStatus)
    if !(← closeRounds E rounds (← onLink (rtNow E)) 0) then return none
    onLink (endSession E)
    return some ()
  else
    onLink (endSession E)
    return some ()

/-! ## Runs -/

/-- A call of the API with its arguments. -/
inductive ApiCall where
  | poll
  | accept (rounds : ℕ)
  | read (max : ℕ)
  | write (rounds : ℕ) (buf : Bytes)
  | close (rounds : ℕ) (exitStatus : UInt32)

def runCall (E : Env) : ApiCall → ServerM Unit
  | .poll => do let _ ← sshPoll E
  | .accept rounds => do let _ ← sshAccept E rounds
  | .read max => do let _ ← sshRead E max
  | .write rounds buf => do let _ ← sshWrite E rounds buf
  | .close rounds exitStatus => do let _ ← sshClose E rounds exitStatus

/-- The states that sequences of API calls on `s` lead to. -/
inductive Runs (E : Env) (s : Server) : Server → Prop
  | none : Runs E s s
  | call {t t' : Server} (h : Runs E s t) (call : ApiCall)
      (hrun : runCall E call t = .ok ((), t')) : Runs E s t'

/-- The states a connection reaches: any sequence of API calls on a new one. -/
def Reachable (E : Env) (s : Server) : Prop :=
  ∃ (connSize : ℕ) (hostSeed : Bytes) (calls : List Call) (input : List ReadResult) (s₀ : Server),
    sshNew E connSize hostSeed calls input = some s₀ ∧ Runs E s₀ s

end EfiSshServer
