import EfiSshServer.Packet

/-!
# The session channel: `RingPush`, `SendChannelReply` and the channel handlers
-/

namespace EfiSshServer

open StateProgram LinkM RingBuffer

def updateChan (f : Channel → Channel) : LinkM Unit :=
  update fun c => { c with chan := f c.chan }

def ringPush (c : Conn) (d : Bytes) : Conn := { c with inRing := c.inRing.pushAll d }

def ringEmpty (c : Conn) : Bool := c.inRing.isEmpty

def channelReplyPayload (msg : UInt8) (remoteChan : UInt32) : Bytes :=
  (((wInit sshPlBuf).wByte msg).wU32 remoteChan).data

@[simp] theorem msgOf_channelReplyPayload (msg : UInt8) (remoteChan : UInt32) :
    msgOf (channelReplyPayload msg remoteChan) = msg := by
  rw [channelReplyPayload]
  exact msgOf_data (WBuf.first_wU32 (first_message _) _)

def sendChannelReply (E : Env) (msg : UInt8) : LinkM Int := do
  sendPacket E (channelReplyPayload msg (← conn).chan.remoteChan)

def openConfirmPayload (sender : UInt32) : Bytes :=
  ((((wInit sshPlBuf).wByte msgChannelOpenConfirm).wU32 sender).wU32 0
    |>.wU32 (UInt32.ofNat sshLocalWindow) |>.wU32 (UInt32.ofNat sshLocalMaxpkt)).data

def openFailurePayload (sender : UInt32) (chanOpen : Bool) : Bytes :=
  ((((wInit sshPlBuf).wByte msgChannelOpenFailure).wU32 sender).wU32 (if chanOpen then 4 else 3)
    |>.wCStr (if chanOpen then "only one session per connection" else "unsupported channel type")
    |>.wCStr "").data

@[simp] theorem msgOf_openConfirmPayload (sender : UInt32) :
    msgOf (openConfirmPayload sender) = msgChannelOpenConfirm := by
  rw [openConfirmPayload]
  refine msgOf_data ?_
  apply WBuf.first_wU32
  apply WBuf.first_wU32
  apply WBuf.first_wU32
  apply WBuf.first_wU32
  exact first_message _

@[simp] theorem msgOf_openFailurePayload (sender : UInt32) (chanOpen : Bool) :
    msgOf (openFailurePayload sender chanOpen) = msgChannelOpenFailure := by
  rw [openFailurePayload]
  refine msgOf_data ?_
  apply WBuf.first_wCStr
  apply WBuf.first_wCStr
  apply WBuf.first_wU32
  apply WBuf.first_wU32
  exact first_message _

def handleChannelOpen (E : Env) (p : Bytes) : LinkM Int := do
  let type := rStr (rInit (p.drop 1))
  let sender := rU32 type.rest
  let window := rU32 sender.rest
  let maxPkt := rU32 window.rest
  if maxPkt.rest.err then return ← fail E discProtocolError "bad CHANNEL_OPEN"
  let c ← conn
  if nameIs type.val "session" = true ∧ c.chan.chanOpen = false then
    updateChan fun ch =>
      { ch with
        chanOpen := true
        remoteChan := sender.val
        remoteWindow := window.val
        remoteMaxPkt := maxPkt.val
        closeSent := false
        closeRecv := false
        remoteEof := false }
    record fun _ => .opened window.val maxPkt.val
    sendPacket E (openConfirmPayload sender.val)
  else sendPacket E (openFailurePayload sender.val c.chan.chanOpen)

/-- The size check that `pty-req` and `window-change` share. -/
def setSize (cols rows : UInt32) (ch : Channel) : Channel :=
  { ch with
    cols := if cols > 0 ∧ cols < 1000 then cols else ch.cols
    rows := if rows > 0 ∧ rows < 1000 then rows else ch.rows }

/-- The part of `HandleChannelRequest` that depends on the request type; the
answer is `ok`. -/
def applyRequest (type : Bytes) (rest : RBuf) : LinkM Bool := do
  if nameIs type "pty-req" then
    let term := rStr rest
    let cols := rU32 term.rest
    let rows := rU32 cols.rest
    if rows.rest.err then return false
    updateChan (setSize cols.val rows.val)
    return true
  else if nameIs type "shell" then
    updateChan fun ch => { ch with shellReady := true }
    return true
  else if nameIs type "window-change" then
    let cols := rU32 rest
    let rows := rU32 cols.rest
    if rows.rest.err then return true
    updateChan (setSize cols.val rows.val)
    return true
  else return nameIs type "env"

/-- The fields in front of every `CHANNEL_REQUEST`. -/
structure RequestHead where
  recipient : UInt32
  type : Bytes
  wantReply : UInt8
  rest : RBuf

def readRequestHead (p : Bytes) : RequestHead :=
  let recipient := rU32 (rInit (p.drop 1))
  let type := rStr recipient.rest
  let wantReply := rByte type.rest
  ⟨recipient.val, type.val, wantReply.val, wantReply.rest⟩

def handleChannelRequest (E : Env) (p : Bytes) : LinkM Int := do
  let r := readRequestHead p
  if r.rest.err = true ∨ r.recipient ≠ 0 ∨ (← conn).chan.chanOpen = false then
    return ← fail E discProtocolError "bad CHANNEL_REQUEST"
  let ok ← applyRequest r.type r.rest
  if r.wantReply ≠ 0 then
    return ← sendChannelReply E (if ok then msgChannelSuccess else msgChannelFailure)
  return 0

end EfiSshServer
