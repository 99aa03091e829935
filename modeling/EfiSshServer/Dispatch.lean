import EfiSshServer.Kex
import EfiSshServer.Auth
import EfiSshServer.Channel

/-!
# `HandlePacket`

One case per message number of the source's switch; the longer ones are
definitions of their own.
-/

namespace EfiSshServer

open StateProgram LinkM

def handleKexInit (E : Env) (p : Bytes) : LinkM Int := do
  let c ← conn
  if c.kex ≠ .idle ∧ c.kex ≠ .waitKexinit then
    return ← fail E discProtocolError "unexpected KEXINIT"
  if !(← ask (.alloc p.length) (E.alloc · p.length)) then
    updateKx fun k => { k with clientKexInit := none }
    return ← fail E discProtocolError "out of memory"
  updateKx fun k => { k with clientKexInit := some p }
  if c.kx.kexInitSent = false then
    if (← sendKexInit E) ≠ 0 then return -1
    finish
  else finish
where
  finish : LinkM Int := do
    updateKx fun k => { k with kexInitSent := false }
    if (← negotiate E) ≠ 0 then return -1
    update fun c => { c with kex := .waitDh }
    return 0

def serviceAcceptPayload : Bytes :=
  (((wInit sshPlBuf).wByte msgServiceAccept).wCStr "ssh-userauth").data

@[simp] theorem msgOf_serviceAcceptPayload : msgOf serviceAcceptPayload = msgServiceAccept := by
  rw [serviceAcceptPayload]
  exact msgOf_data (WBuf.first_wCStr (first_message _) _)

def handleServiceRequest (E : Env) (p : Bytes) : LinkM Int := do
  let c ← conn
  if c.state = .version ∨ c.state = .kex then
    return ← fail E discProtocolError "service request before kex"
  let name := rStr (rInit (p.drop 1))
  if name.rest.err = true ∨ nameIs name.val "ssh-userauth" = false then
    return ← fail E discProtocolError "unknown service"
  sendPacket E serviceAcceptPayload

def requestFailurePayload : Bytes := ((wInit sshPlBuf).wByte msgRequestFailure).data

@[simp] theorem msgOf_requestFailurePayload : msgOf requestFailurePayload = msgRequestFailure := by
  rw [requestFailurePayload]
  exact msgOf_data (first_message _)

/-- A `GLOBAL_REQUEST` that parses and asks for a reply. -/
def globalWantsReply (p : Bytes) : Bool :=
  let name := rStr (rInit (p.drop 1))
  let wantReply := rByte name.rest
  !wantReply.rest.err && wantReply.val ≠ 0

def handleGlobalRequest (E : Env) (p : Bytes) : LinkM Int := do
  if globalWantsReply p then sendPacket E requestFailurePayload else return 0

def handleChannelData (E : Env) (p : Bytes) : LinkM Int := do
  let recipient := rU32 (rInit (p.drop 1))
  if recipient.val ≠ 0 ∨ (← conn).chan.chanOpen = false then
    return ← fail E discProtocolError "bad channel"
  let d := rStr recipient.rest
  if d.rest.err then return ← fail E discProtocolError "bad CHANNEL_DATA"
  record fun c => .received d.val c
  update fun c => ringPush c d.val
  return 0

def handleWindowAdjust (p : Bytes) : LinkM Int := do
  let recipient := rU32 (rInit (p.drop 1))
  let add := rU32 recipient.rest
  if add.rest.err then return 0
  updateChan fun ch => { ch with remoteWindow := ch.remoteWindow + add.val }
  record fun _ => .adjusted add.val
  return 0

def handleChannelClose (E : Env) : LinkM Int := do
  updateChan fun ch => { ch with closeRecv := true }
  let c ← conn
  if c.chan.chanOpen = true ∧ c.chan.closeSent = false then
    updateChan fun ch => { ch with closeSent := true }
    let _ ← sendChannelReply E msgChannelClose
    return 0
  else return 0

def unimplementedPayload (seq : UInt32) : Bytes :=
  (((wInit sshPlBuf).wByte msgUnimplemented).wU32 seq).data

@[simp] theorem msgOf_unimplementedPayload (seq : UInt32) :
    msgOf (unimplementedPayload seq) = msgUnimplemented := by
  rw [unimplementedPayload]
  exact msgOf_data (WBuf.first_wU32 (first_message _) _)

/-- The switch of `HandlePacket`. -/
def handleMessage (E : Env) (msg : UInt8) (p : Bytes) : LinkM Int := do
  let c ← conn
  if msg = msgDisconnect then
    update fun c => { c with state := .closed }
    return -1
  else if msg = msgIgnore ∨ msg = msgDebug ∨ msg = msgUnimplemented ∨ msg = msgExtInfo then
    return 0
  else if msg = msgKexinit then handleKexInit E p
  else if msg = msgKexdhInit then
    if c.kex ≠ .waitDh then fail E discProtocolError "unexpected KEXDH_INIT"
    else doKexDh E p
  else if msg = msgNewkeys then
    if c.kex ≠ .waitNewkeys then fail E discProtocolError "unexpected NEWKEYS"
    else applyNewKeys E
  else if msg = msgServiceRequest then handleServiceRequest E p
  else if msg = msgUserauthRequest then
    if c.state = .conn then return 0
    else if c.state ≠ .auth then fail E discProtocolError "auth before kex"
    else handleUserauth E p
  else if msg = msgGlobalRequest then handleGlobalRequest E p
  else if msg = msgChannelOpen then
    if c.state ≠ .conn then fail E discProtocolError "channel before auth"
    else handleChannelOpen E p
  else if msg = msgChannelRequest then
    if c.state ≠ .conn then fail E discProtocolError "channel before auth"
    else handleChannelRequest E p
  else if msg = msgChannelData then handleChannelData E p
  else if msg = msgChannelExtendedData then return 0
  else if msg = msgChannelWindowAdjust then handleWindowAdjust p
  else if msg = msgChannelEof then
    updateChan fun ch => { ch with remoteEof := true }
    return 0
  else if msg = msgChannelClose then handleChannelClose E
  else sendPacket E (unimplementedPayload (c.inDir.seq - 1))

def handlePacket (E : Env) (p : Bytes) : LinkM Int := do
  match p with
  | [] => fail E discProtocolError "empty payload"
  | msg :: _ =>
    let c ← conn
    if c.kx.ignoreNextKexPacket = true ∧ 30 ≤ msg ∧ msg ≤ 49 then
      updateKx fun k => { k with ignoreNextKexPacket := false }
      return 0
    if c.state = .version then return ← fail E discProtocolError "packet before version"
    handleMessage E msg p

/-! Some cases of the switch. -/

section Switch

variable {E : Env} {p : Bytes}

theorem handleMessage_channelOpen : handleMessage E msgChannelOpen p = (do
    let c ← conn
    if c.state ≠ .conn then fail E discProtocolError "channel before auth"
    else handleChannelOpen E p) := rfl

theorem handleMessage_channelData : handleMessage E msgChannelData p = handleChannelData E p :=
  rfl

theorem handleMessage_windowAdjust :
    handleMessage E msgChannelWindowAdjust p = handleWindowAdjust p := rfl

end Switch

/-- `p` is skipped: a key exchange packet behind a wrong guess. -/
def Conn.discards (c : Conn) (p : Bytes) : Bool :=
  c.kx.ignoreNextKexPacket && (30 ≤ msgOf p && msgOf p ≤ 49)

theorem Conn.discards_iff {c : Conn} {p : Bytes} :
    c.discards p = true ↔ c.kx.ignoreNextKexPacket = true ∧ 30 ≤ msgOf p ∧ msgOf p ≤ 49 := by
  simp [discards]

/-- A skipped packet only clears the flag. -/
theorem handlePacket_of_discards {E : Env} {p : Bytes} {l : Link}
    (h : l.conn.discards p = true) : handlePacket E p l = .ok (0, { l with
      conn := { l.conn with kx := { l.conn.kx with ignoreNextKexPacket := false } } }) := by
  rw [Conn.discards_iff] at h
  cases p with
  | nil => exact absurd h.2.1 (by decide)
  | cons msg rest =>
      have hguess : l.conn.kx.ignoreNextKexPacket = true ∧ 30 ≤ msg ∧ msg ≤ 49 := h
      simp only [handlePacket, conn, bind, StateT.bind, Except.bind, if_pos hguess]
      rfl

/-- Past the version exchange, every other packet goes straight to the switch. -/
theorem handlePacket_eq {E : Env} {p : Bytes} {l : Link} (hne : p ≠ [])
    (hkeep : l.conn.discards p = false) (hversion : l.conn.state ≠ .version) :
    handlePacket E p l = handleMessage E (msgOf p) p l := by
  rw [← Bool.not_eq_true, Conn.discards_iff] at hkeep
  cases p with
  | nil => exact absurd rfl hne
  | cons msg rest =>
      have hguess : ¬ (l.conn.kx.ignoreNextKexPacket = true ∧ 30 ≤ msg ∧ msg ≤ 49) := hkeep
      simp only [handlePacket, conn, bind, StateT.bind, Except.bind, if_neg hguess, if_neg hversion]
      rfl

/-- Messages outside the range of the key exchange methods are not skipped. -/
theorem Conn.discards_of_msg (c : Conn) {p : Bytes} (hrange : ¬ (30 ≤ msgOf p ∧ msgOf p ≤ 49)) :
    c.discards p = false := by
  rw [← Bool.not_eq_true, Conn.discards_iff]
  exact fun h => hrange h.2

end EfiSshServer
