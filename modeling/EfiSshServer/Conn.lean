import Mathlib.Data.Vector.Defs
import EfiSshServer.Lib.Program
import EfiSshServer.Lib.Ring
import EfiSshServer.Wire

/-!
# The connection, the platform under it, and what is recorded of a run

`Conn` is `SSH_CONN` without its receive buffer, which `Input.lean` adds: no
function of the packet layer and no message handler touches `rx`, and their
types say so.

Everything outside `ssh.c` is an `Env`: the transport, the allocator, the clock,
the RNG, wolfCrypt and the password callback.  Each call that can fail or whose
answer is not fixed is appended to `Link.calls`, and `Env` answers it as a
function of the calls made before, so quantifying over `Env` covers every
behaviour.  The ciphers, hashes and the curve are plain functions of their
arguments.

`Link.log` is not program state.  It records what the properties speak about: a
packet sent or refused, a payload dispatched, a call of the password callback,
data in and out.  An entry keeps the connection as it was at that moment.  The
newest entry comes first.
-/

namespace EfiSshServer

open StateProgram RingBuffer

/-! ## Constants -/

def msgDisconnect : UInt8 := 1
def msgIgnore : UInt8 := 2
def msgUnimplemented : UInt8 := 3
def msgDebug : UInt8 := 4
def msgServiceRequest : UInt8 := 5
def msgServiceAccept : UInt8 := 6
def msgExtInfo : UInt8 := 7
def msgKexinit : UInt8 := 20
def msgNewkeys : UInt8 := 21
def msgKexdhInit : UInt8 := 30
def msgKexdhReply : UInt8 := 31
def msgUserauthRequest : UInt8 := 50
def msgUserauthFailure : UInt8 := 51
def msgUserauthSuccess : UInt8 := 52
def msgGlobalRequest : UInt8 := 80
def msgRequestFailure : UInt8 := 82
def msgChannelOpen : UInt8 := 90
def msgChannelOpenConfirm : UInt8 := 91
def msgChannelOpenFailure : UInt8 := 92
def msgChannelWindowAdjust : UInt8 := 93
def msgChannelData : UInt8 := 94
def msgChannelExtendedData : UInt8 := 95
def msgChannelEof : UInt8 := 96
def msgChannelClose : UInt8 := 97
def msgChannelRequest : UInt8 := 98
def msgChannelSuccess : UInt8 := 99
def msgChannelFailure : UInt8 := 100

def discProtocolError : UInt32 := 2
def discKeyExchangeFailed : UInt32 := 3
def discMacError : UInt32 := 5
def discByApplication : UInt32 := 11
def discNoMoreAuthMethods : UInt32 := 14

abbrev sshMaxPacket : ℕ := 35000
abbrev sshRxBuf : ℕ := sshMaxPacket + 256
abbrev sshTxBuf : ℕ := sshMaxPacket + 256
abbrev sshPlBuf : ℕ := sshMaxPacket
abbrev sshInRing : ℕ := 65536
abbrev sshLocalWindow : ℕ := 32768
abbrev sshLocalMaxpkt : ℕ := 32768
abbrev sshDataChunk : ℕ := 16384
abbrev sshAcceptTimeoutMs : ℕ := 120000
abbrev sshWriteTimeoutMs : ℕ := 30000
abbrev sshCloseTimeoutMs : ℕ := 2000
abbrev sshMaxAuthTries : ℕ := 5

theorem sshInRing_pos : 0 < sshInRing := by decide

def sshServerVersion : String := "SSH-2.0-UefiSshShell_0.1"
def kexAlgs : String := "curve25519-sha256,curve25519-sha256@libssh.org"
def hostkeyAlgs : String := "ssh-ed25519"
def encAlgs : String := "aes128-ctr,aes256-ctr,aes192-ctr"
def macAlgs : String := "hmac-sha2-256,hmac-sha2-512"
def compAlgs : String := "none"

/-! ## The connection -/

inductive SshState where
  | version | kex | auth | conn | closed
  deriving DecidableEq, Repr

inductive KexState where
  | idle | waitKexinit | waitDh | waitNewkeys
  deriving DecidableEq, Repr

inductive MacType where
  | sha256 | sha512
  deriving DecidableEq, Repr

def macLenOf : MacType → ℕ
  | .sha256 => 32
  | .sha512 => 64

/-- An AES-CTR context: the key and counter block it was set with, and how many
keystream bytes it has used. -/
structure Aes where
  key : Bytes
  iv : Bytes
  pos : ℕ
  deriving DecidableEq, Repr

/-- `SSH_DIR`.  `macLen` and `macKeyLen` are left out: the source always sets both
to `MacLenOf(macType)` together with `macType`. -/
structure Dir where
  aes : Aes
  macKey : Bytes
  macType : MacType
  active : Bool
  seq : UInt32

def Dir.macLen (d : Dir) : ℕ := macLenOf d.macType

/-- The keys a direction uses, as far as it uses them. -/
structure DirKeys where
  key : Bytes
  iv : Bytes
  macKey : Bytes
  macType : MacType
  deriving DecidableEq, Repr

/-- `none` as long as nothing is encrypted. -/
def Dir.keys (d : Dir) : Option DirKeys :=
  if d.active then some ⟨d.aes.key, d.aes.iv, d.macKey.take d.macLen, d.macType⟩ else none

/-- Further packets have gone through a direction. -/
def Dir.moved (d : Dir) (pos : ℕ) (seq : UInt32) : Dir :=
  { d with aes := { d.aes with pos := pos }, seq := seq }

@[simp] theorem Dir.active_moved (d : Dir) (pos : ℕ) (seq : UInt32) :
    (d.moved pos seq).active = d.active :=
  rfl

@[simp] theorem Dir.keys_moved (d : Dir) (pos : ℕ) (seq : UInt32) :
    (d.moved pos seq).keys = d.keys :=
  rfl

/-- What `SSH_CONN` keeps of the current key exchange.  The buffers are `none`
while their pointer is `NULL`; `sessionId` is `none` until `haveSessionId`. -/
structure Exchange where
  clientKexInit : Option Bytes
  serverKexInit : Option Bytes
  kexInitSent : Bool
  ignoreNextKexPacket : Bool
  nextEncKeyLenIn : ℕ
  nextEncKeyLenOut : ℕ
  nextMacTypeIn : MacType
  nextMacTypeOut : MacType
  sessionId : Option Bytes

/-- The keys that wait for the client's `NEWKEYS`. -/
structure Pending where
  pendKey : Bytes
  pendIv : Bytes
  pendMac : Bytes
  pendKeyLen : ℕ
  pendMacType : MacType

/-- The session channel. -/
structure Channel where
  chanOpen : Bool
  remoteChan : UInt32
  remoteWindow : UInt32
  remoteMaxPkt : UInt32
  shellReady : Bool
  remoteEof : Bool
  closeSent : Bool
  closeRecv : Bool
  cols : UInt32
  rows : UInt32

/-- The login state.  `user` is the buffer up to the NUL stored behind the name. -/
structure Login where
  authenticated : Bool
  authTries : ℕ
  user : Bytes

/-- `SSH_CONN`, less the receive buffer and the buffers that are only scratch;
the fields are grouped as the source groups them. -/
structure Conn where
  hostSeed : Bytes
  hostPub : Bytes
  state : SshState
  kex : KexState
  versionSent : Bool
  clientVersion : Bytes
  kx : Exchange
  inDir : Dir
  outDir : Dir
  pend : Pending
  inRing : Ring UInt8 sshInRing
  consumed : UInt32
  chan : Channel
  login : Login

/-! ## The platform -/

/-- A call whose answer the platform decides. -/
inductive Call where
  | alloc (size : ℕ)
  | random (size : ℕ)
  | write (bytes : Bytes)
  | clock
  | hmac
  | aes
  | aesSetKey
  | curveMakeKey
  | curveExport
  | curveImport
  | curveSharedSecret
  | ed25519Sign
  | initRng
  | loadHostKey
  | aesInit
  | auth (user pass : Bytes)

/-- Everything the connection runs on.  `wr` answers `true` when the transport
accepted all bytes. -/
structure Env where
  alloc : List Call → ℕ → Bool
  random : List Call → (n : ℕ) → Option (List.Vector UInt8 n)
  wr : List Call → Bytes → Bool
  clock : List Call → ℕ
  auth : List Call → Bytes → Bytes → Bool
  hmacOk : List Call → Bool
  hmac : (type : MacType) → (key data : Bytes) → List.Vector UInt8 (macLenOf type)
  aesOk : List Call → Bool
  keystream : (key iv : Bytes) → ℕ → UInt8
  aesSetKeyOk : List Call → Bool
  sha256 : Bytes → List.Vector UInt8 32
  curveMakeKey : List Call → Option Bytes
  curveExportOk : List Call → Bool
  curvePublic : Bytes → List.Vector UInt8 32
  curveImportOk : List Call → Bool
  curveSharedOk : List Call → Bool
  curveShared : (mine theirs : Bytes) → Bytes
  signOk : List Call → Bool
  sign : (seed pub message : Bytes) → Bytes
  initRngOk : List Call → Bool
  loadHostKeyOk : List Call → Bool
  hostPublic : (seed : Bytes) → List.Vector UInt8 32
  aesInitOk : List Call → Bool

/-- No allocation and no call into wolfCrypt fails. -/
structure Env.Reliable (E : Env) : Prop where
  alloc : ∀ calls size, E.alloc calls size = true
  random : ∀ calls size, E.random calls size ≠ none
  hmac : ∀ calls, E.hmacOk calls = true
  aes : ∀ calls, E.aesOk calls = true
  aesSetKey : ∀ calls, E.aesSetKeyOk calls = true
  curveMakeKey : ∀ calls, E.curveMakeKey calls ≠ none
  curveExport : ∀ calls, E.curveExportOk calls = true
  curveImport : ∀ calls, E.curveImportOk calls = true
  curveShared : ∀ calls, E.curveSharedOk calls = true
  secret : ∀ mine theirs, (E.curveShared mine theirs).length = 32
  sign : ∀ calls, E.signOk calls = true
  signature : ∀ seed pub message, (E.sign seed pub message).length = 64

/-! ## What is recorded of a run -/

/-- What one run of `DoKexDh` hashes: `V_C`, `V_S`, `I_C`, `I_S`, `K_S`, `Q_C` and `Q_S`,
and the shared secret. -/
structure Transcript where
  clientVersion : Bytes
  serverVersion : Bytes
  clientKexInit : Bytes
  serverKexInit : Bytes
  ks : Bytes
  qc : Bytes
  qs : Bytes
  k : Bytes
  deriving DecidableEq

inductive Event where
  /-- `SshAccept` sent this version line. -/
  | versionSent (line : Bytes)
  /-- `SendPacket` returned 0 for this payload. -/
  | sent (payload : Bytes) (c : Conn)
  /-- `SendPacket` returned -1 for this payload, with the connection as it was then. -/
  | sendFailed (payload : Bytes) (c : Conn)
  /-- `SendKexInit` returned -1 without a payload to send. -/
  | kexInitFailed
  /-- `HandlePacket` was entered with this payload; `packet` and `mac` are the
  decrypted packet and the MAC bytes that came with it. -/
  | dispatch (payload packet mac : Bytes) (c : Conn)
  /-- `DoKexDh` computed an exchange hash. -/
  | exchange (x : Transcript) (c : Conn)
  /-- The password callback was called and answered `ok`. -/
  | auth (user pass : Bytes) (ok : Bool) (c : Conn)
  /-- A channel was opened with this window and maximum packet size. -/
  | opened (window maxPkt : UInt32)
  /-- A `WINDOW_ADJUST` was added to the window. -/
  | adjusted (add : UInt32)
  /-- The data of a `CHANNEL_DATA` was handed to `RingPush`. -/
  | received (data : Bytes) (c : Conn)
  /-- `SshRead` took these bytes off the ring. -/
  | popped (data : Bytes) (c : Conn)
  /-- `SshRead` returned -1. -/
  | readEnd (c : Conn)
  /-- `SshAccept` returned 0. -/
  | accepted
  /-- `SshClose` found an open channel and started the close handshake. -/
  | closing (c : Conn)

/-- The events of the sending side. -/
def Event.isSend : Event → Bool
  | .sent .. | .sendFailed .. | .kexInitFailed | .closing .. => true
  | _ => false

/-- The connection with what is recorded of its run. -/
structure Session where
  conn : Conn
  log : List Event

/-- A session on its platform. -/
structure Link extends Session where
  calls : List Call

/-- An access with no defined result. -/
inductive Fault where
  /-- A store behind the end of `clientVersion`. -/
  | versionOverflow
  /-- An access outside the bytes received so far. -/
  | outOfRange
  /-- A `NULL` buffer is read. -/
  | nullBuffer
  deriving DecidableEq, Repr

abbrev LinkM := Program Fault Link

namespace LinkM

def conn : LinkM Conn := fun l => .ok (l.conn, l)

def update (f : Conn → Conn) : LinkM Unit := fun l => .ok ((), { l with conn := f l.conn })

/-- Record an event, given the connection at this moment. -/
def record (e : Conn → Event) : LinkM Unit := fun l =>
  .ok ((), { l with log := e l.conn :: l.log })

/-- Make a call and get the platform's answer. -/
def ask {α : Type} (call : Call) (answer : List Call → α) : LinkM α := fun l =>
  .ok (answer l.calls, { l with calls := call :: l.calls })

/-- Read a buffer through a pointer. -/
def deref (p : Option Bytes) : LinkM Bytes :=
  match p with
  | some b => pure b
  | none => throw .nullBuffer

section Rules

variable {fault : Fault → Prop}

@[simp] theorem wp_conn {post : Conn → Link → Prop} :
    wp conn post fault = fun l => post l.conn l :=
  rfl

@[simp] theorem wp_update {post : Unit → Link → Prop} (f : Conn → Conn) :
    wp (update f) post fault = fun l => post () { l with conn := f l.conn } :=
  rfl

@[simp] theorem wp_record {post : Unit → Link → Prop} (e : Conn → Event) :
    wp (record e) post fault = fun l => post () { l with log := e l.conn :: l.log } :=
  rfl

@[simp] theorem wp_ask {α : Type} {post : α → Link → Prop} (call : Call)
    (answer : List Call → α) :
    wp (ask call answer) post fault =
      fun l => post (answer l.calls) { l with calls := call :: l.calls } :=
  rfl

@[simp] theorem wp_deref {post : Bytes → Link → Prop} (p : Option Bytes) :
    wp (deref p) post fault =
      fun l => (∀ b, p = some b → post b l) ∧ (p = none → fault .nullBuffer) := by
  funext l
  cases p <;> simp [deref]

end Rules

end LinkM

end EfiSshServer
