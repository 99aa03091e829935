import EfiSshServer.Dispatch

/-!
# Input assembly: `TryProcessOne` and `ProcessInput`

`Rx` is the receive buffer with the persisted header state, `Receiver` puts it
beside the link, and `Server` adds what the transport will deliver.  Every access
of `TryProcessOne` to `rx` goes through `slice` or `compact`, which fault outside
the `rxLen` bytes received, and the store into `clientVersion` goes through
`storeVersion`, which faults behind its 256 bytes.

The read callback is a script: a list of results, delivered in order and cut to
the free space of the buffer; after its end every read finds nothing pending.
Any behaviour of a transport over a finite time is such a script.
-/

namespace EfiSshServer

open StateProgram

structure Rx where
  buf : Bytes
  haveLen : Bool
  pktLen : ℕ

structure Receiver where
  link : Link
  rx : Rx

abbrev RecvM := Program Fault Receiver

namespace RecvM

/-- Run a program of the link; it cannot see the receive buffer. -/
def onLink {α : Type} : LinkM α → RecvM α := zoom Receiver.link fun l r => { r with link := l }

def conn : RecvM Conn := onLink LinkM.conn

def rx : RecvM Rx := fun r => .ok (r.rx, r)

def setRx (f : Rx → Rx) : RecvM Unit := fun r => .ok ((), { r with rx := f r.rx })

/-- The bytes `rx[off .. off + len)`. -/
def slice (off len : ℕ) : RecvM Bytes := fun r =>
  if off + len ≤ r.rx.buf.length then .ok ((r.rx.buf.drop off).take len, r)
  else .error .outOfRange

/-- Move what follows the first `n` bytes to the front. -/
def compact (n : ℕ) : RecvM Unit := fun r =>
  if n ≤ r.rx.buf.length then .ok ((), { r with rx := { r.rx with buf := r.rx.buf.drop n } })
  else .error .outOfRange

end RecvM

open RecvM

/-! ## The version line -/

def lf : UInt8 := 10
def cr : UInt8 := 13

/-- `sizeof(c->clientVersion)`. -/
abbrev clientVersionSize : ℕ := 256

/-- The index of the first line feed, or the length when there is none. -/
def lineEnd (b : Bytes) : ℕ := (b.takeWhile (· ≠ lf)).length

/-- The first line without its line end. -/
def firstLine (b : Bytes) : Bytes :=
  if 0 < lineEnd b ∧ b.getD (lineEnd b - 1) 0 = cr then b.take (lineEnd b - 1)
  else b.take (lineEnd b)

def isSshLine (line : Bytes) : Bool := 4 ≤ line.length && line.take 4 = ascii "SSH-"

def isSupported (line : Bytes) : Bool :=
  8 ≤ line.length && (line.take 7 = ascii "SSH-2.0" || line.take 8 = ascii "SSH-1.99")

/-- `memcpy` of the line and the NUL behind it. -/
def storeVersion (line : Bytes) : LinkM Unit := do
  if line.length + 1 > clientVersionSize then throw .versionOverflow
  LinkM.update fun c =>
    { c with clientVersion := line, state := .kex, kex := .waitKexinit }

/-- After a line: `SendKexInit` when the version was just accepted. -/
def afterLine (E : Env) : LinkM Int := do
  let c ← LinkM.conn
  if c.state = .kex ∧ c.kx.kexInitSent = false then
    if (← sendKexInit E) ≠ 0 then return -1
    return 1
  else return 1

def tryVersionLine (E : Env) : RecvM Int := do
  let b := (← rx).buf
  if lineEnd b = b.length then
    if b.length ≥ 255 then
      return ← onLink (fail E discProtocolError "version line too long")
    return 0
  let line := firstLine b
  if isSshLine line then
    if !isSupported line then
      return ← onLink (fail E discProtocolError "only SSH 2.0 is supported")
    onLink (storeVersion line)
    compact (lineEnd b + 1)
    onLink (afterLine E)
  else
    compact (lineEnd b + 1)
    onLink (afterLine E)

/-! ## Binary packets -/

/-- The bytes `TryProcessOne` looks at first. -/
def firstLen (d : Dir) : ℕ := if d.active then 16 else 4

/-- The bytes of the MAC behind a packet. -/
def trailerLen (d : Dir) : ℕ := if d.active then d.macLen else 0

def badLength (d : Dir) (pktLen : ℕ) : Bool :=
  pktLen < 5 || pktLen > sshMaxPacket - 4 || (4 + pktLen) % blockOf d ≠ 0

/-- The next bytes of the stream, decrypted; `none` when the cipher fails. -/
def decipher (E : Env) (data : Bytes) : LinkM (Option Bytes) := do
  if !(← LinkM.ask .aes E.aesOk) then return none
  let plain := aesCtr E (← LinkM.conn).inDir.aes data
  LinkM.update fun c => { c with inDir := { c.inDir with aes := plain.2 } }
  return some plain.1

/-- Decrypt `rx[off .. off + len)` in place. -/
def decryptAt (E : Env) (off len : ℕ) : RecvM Bool := do
  let some plain ← onLink (decipher E (← slice off len)) | return false
  setRx fun x => { x with buf := x.buf.take off ++ plain ++ x.buf.drop (off + len) }
  return true

def checkLength (E : Env) (d : Dir) : RecvM Int := do
  let pktLen := (getU32 (← slice 0 4)).toNat
  setRx fun x => { x with pktLen := pktLen }
  if badLength d pktLen then
    return ← onLink (fail E discProtocolError "bad packet length")
  setRx fun x => { x with haveLen := true }
  return 1

/-- Decrypt the first bytes of a packet and read its length. -/
def parseHeader (E : Env) (d : Dir) : RecvM Int := do
  if d.active then
    if !(← decryptAt E 0 16) then return ← onLink (fail E discProtocolError "decrypt")
    checkLength E d
  else checkLength E d

/-- Parse the packet length unless that is done already: 1 when it is known, 0
when more bytes are needed, -1 after a disconnect. -/
def readHeader (E : Env) : RecvM Int := do
  let x ← rx
  let d := (← conn).inDir
  if x.haveLen then return 1
  if x.buf.length < firstLen d then return 0
  parseHeader E d

/-- Compare the MAC of a packet: 0, or -1 after a disconnect. -/
def compareMac (E : Env) (packet mac : Bytes) : LinkM Int := do
  if !(← LinkM.ask .hmac E.hmacOk) then return ← fail E discMacError "mac"
  if macOf E (← LinkM.conn).inDir packet ≠ mac then return ← fail E discMacError "MAC mismatch"
  return 0

def checkPacketMac (E : Env) (d : Dir) (total : ℕ) : RecvM Int := do
  let packet ← slice 0 total
  let mac ← slice total d.macLen
  onLink (compareMac E packet mac)

/-- Decrypt the rest of the packet and check its MAC: 0, or -1 after a
disconnect. -/
def checkMac (E : Env) (d : Dir) (total : ℕ) : RecvM Int := do
  if total > 16 then
    if !(← decryptAt E 16 (total - 16)) then
      return ← onLink (fail E discProtocolError "decrypt")
    checkPacketMac E d total
  else checkPacketMac E d total

/-- Count the packet and hand its payload to the handler. -/
def dispatch (handle : Bytes → LinkM Int) (payload packet mac : Bytes) : LinkM Int := do
  LinkM.update fun c => { c with inDir := { c.inDir with seq := c.inDir.seq + 1 } }
  LinkM.record fun c => .dispatch payload packet mac c
  handle payload

/-- A complete packet whose MAC is checked: take off the padding, dispatch the
payload and drop the packet. -/
def finishPacket (E : Env) (handle : Bytes → LinkM Int) (total need : ℕ) : RecvM Int := do
  let pktLen := (← rx).pktLen
  let padLen := ((← slice 4 1).headD 0).toNat
  if padLen < 4 ∨ padLen + 1 > pktLen then
    return ← onLink (fail E discProtocolError "bad padding")
  let payload ← slice 5 (pktLen - 1 - padLen)
  let packet ← slice 0 total
  let mac ← slice total (need - total)
  let ret ← onLink (dispatch handle payload packet mac)
  compact need
  setRx fun x => { x with haveLen := false }
  if ret < 0 ∨ (← conn).state = .closed then return -1
  return 1

/-- A packet that has arrived with all its bytes. -/
def completePacket (E : Env) (handle : Bytes → LinkM Int) (d : Dir) (total need : ℕ) :
    RecvM Int := do
  if d.active then
    if (← checkMac E d total) ≠ 0 then return -1
    finishPacket E handle total need
  else finishPacket E handle total need

/-- `TryProcessOne` once the packet length is known. -/
def tryBody (E : Env) (handle : Bytes → LinkM Int) : RecvM Int := do
  let d := (← conn).inDir
  let x ← rx
  let total := 4 + x.pktLen
  let need := total + trailerLen d
  if x.buf.length < need then return 0
  completePacket E handle d total need

/-- The part of `TryProcessOne` behind the version exchange. -/
def tryPacket (E : Env) (handle : Bytes → LinkM Int) : RecvM Int := do
  let header ← readHeader E
  if header ≠ 1 then return header
  tryBody E handle

/-- `TryProcessOne` for any packet handler. -/
def tryProcessOneWith (E : Env) (handle : Bytes → LinkM Int) : RecvM Int := do
  let c ← conn
  if c.state = .closed then return -1
  else if c.state = .version then tryVersionLine E
  else tryPacket E handle

def tryProcessOne (E : Env) : RecvM Int := tryProcessOneWith E (handlePacket E)

/-! ## `ProcessInput` -/

/-- What a call of the read callback returns. -/
inductive ReadResult where
  | data (bytes : Bytes)
  | lost
  deriving DecidableEq

structure Server extends Receiver where
  input : List ReadResult

abbrev ServerM := Program Fault Server

def onRecv {α : Type} : RecvM α → ServerM α :=
  zoom Server.toReceiver fun r s => { s with toReceiver := r }

namespace ServerM

def onLink {α : Type} (m : LinkM α) : ServerM α := onRecv (RecvM.onLink m)

def conn : ServerM Conn := onRecv RecvM.conn

end ServerM

/-- The read callback with `max` bytes of room; `none` is its error result. -/
def rd (max : ℕ) : ServerM (Option Bytes) := fun s =>
  match s.input with
  | [] => .ok (some [], s)
  | .lost :: rest => .ok (none, { s with input := rest })
  | .data b :: rest =>
      if b.length ≤ max then .ok (some b, { s with input := rest })
      else .ok (some (b.take max), { s with input := .data (b.drop max) :: rest })

/-- Read once if there is room; `none` when the connection is lost, otherwise
whether anything came. -/
def receive : ServerM (Option Bool) := do
  let len := (← onRecv rx).buf.length
  if len < sshRxBuf then
    match ← rd (sshRxBuf - len) with
    | none =>
        ServerM.onLink (LinkM.update fun c => { c with state := .closed })
        return none
    | some b =>
        onRecv (setRx fun x => { x with buf := x.buf ++ b })
        return some (b ≠ [])
  else return some false

/-- The inner loop of `ProcessInput`: `none` after -1, otherwise whether any packet
was processed.  Every round that goes on drops a byte of `rx`. -/
def processAll (E : Env) : ℕ → Bool → RecvM (Option Bool)
  | 0, any => return some any
  | rounds + 1, any => do
      let r ← tryProcessOne E
      if r < 0 then return none
      if r = 0 then return some any
      processAll E rounds true

/-- The outer loop of `ProcessInput`: what it returns, and `progressed`. -/
def processRounds (E : Env) : ℕ → Bool → ServerM (Int × Bool)
  | 0, progressed => return (0, progressed)
  | rounds + 1, progressed => do
      if (← ServerM.conn).state = .closed then return (-1, progressed)
      let some got ← receive | return (-1, progressed)
      let some any ← onRecv (do processAll E ((← rx).buf.length + 1) got)
        | return (-1, progressed)
      if any then processRounds E rounds true else return (0, progressed)

/-- What a script still has to deliver. -/
def scriptBytes : List ReadResult → Bytes
  | [] => []
  | .data b :: rest => b ++ scriptBytes rest
  | .lost :: rest => scriptBytes rest

/-- A bound on the rounds of `ProcessInput`: each one that goes on reads a byte or
processes one. -/
def inputBound (s : Server) : ℕ :=
  2 * (scriptBytes s.input).length + s.input.length + s.rx.buf.length + 1

def processInput (E : Env) : ServerM (Int × Bool) := do
  processRounds E (inputBound (← get)) false

end EfiSshServer
