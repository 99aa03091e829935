import Mathlib.Logic.Relation
import EfiSshServer.Api

/-!
# What a session can do

`Step` lists every way the code changes a connection, with the guard the code
checks first and the packet it sends in the same breath.  It leaves out how the
code computes the values it stores where no property depends on them.  Each
change that must not be seen half done is one step: the answer of the password
callback together with its consequence, `NEWKEYS` together with the key switch,
the close handshake as a whole.

`Refinement.lean` shows that every API call is a sequence of steps.  An
assertion that each step keeps is therefore an invariant of the program, and the
invariants of the later files are all proved that way.
-/

namespace EfiSshServer

open StateProgram RingBuffer

/-- What `Disconnect` does: nothing on a closed connection, otherwise a
`DISCONNECT` that may be lost, and the connection is closed. -/
inductive Farewell (s : Session) : Session → Prop
  | already (h : s.conn.state = .closed) : Farewell s s
  | sent {reason : UInt32} {msg : String} {r : Int} {t : Session}
      (hopen : s.conn.state ≠ .closed) (h : Emits (disconnectPayload reason msg) s r t) :
      Farewell s ⟨{ t.conn with state := .closed }, t.log⟩

/-- The packet `q` is being handled, and nothing a reply depends on has changed
since it was dispatched. -/
def Handling (s : Session) (q : Bytes) : Prop :=
  ∃ packet mac c log, s.log = .dispatch q packet mac c :: log ∧ c.kex = s.conn.kex ∧
    c.state = s.conn.state ∧ c.chan.chanOpen = s.conn.chan.chanOpen ∧
    c.chan.closeSent = s.conn.chan.closeSent

/-- A `CHANNEL_REQUEST` that parses, is for channel 0 and asks for a reply. -/
def requestWantsReply (q : Bytes) : Bool :=
  !(readRequestHead q).rest.err && (readRequestHead q).recipient = 0 &&
    (readRequestHead q).wantReply ≠ 0

/-- A `SERVICE_REQUEST` for the one service there is. -/
def requestsUserauth (q : Bytes) : Bool :=
  let name := rStr (rInit (q.drop 1))
  !name.rest.err && nameIs name.val "ssh-userauth"

/-- A `USERAUTH_REQUEST` that parses and is for the connection service. -/
def requestsConnection (q : Bytes) : Bool :=
  let user := rStr (rInit (q.drop 1))
  let service := rStr user.rest
  let method := rStr service.rest
  !method.rest.err && nameIs service.val "ssh-connection"

/-- A `USERAUTH_REQUEST` with a password for the callback. -/
def offersPassword (p : Bytes) : Bool :=
  let user := rStr (rInit (p.drop 1))
  let service := rStr user.rest
  let method := rStr service.rest
  let change := rByte method.rest
  let pass := rStr change.rest
  nameIs method.val "password" && change.val = 0 && !pass.rest.err && pass.val.length < pwSize

/-- A `CHANNEL_REQUEST` that tells the size of the client's window. -/
def tellsSize (q : Bytes) : Bool :=
  nameIs (readRequestHead q).type "pty-req" || nameIs (readRequestHead q).type "window-change"

/-- A `CHANNEL_OPEN` that parses. -/
def opensChannel (q : Bytes) : Bool :=
  let type := rStr (rInit (q.drop 1))
  let sender := rU32 type.rest
  let window := rU32 sender.rest
  let maxPkt := rU32 window.rest
  !maxPkt.rest.err

/-- The packets that are only an answer to the packet `q`. -/
inductive Replies (c : Conn) (q : Bytes) : Bytes → Prop
  | serviceAccept (hmsg : msgOf q = msgServiceRequest) (hstate : c.state ≠ .kex)
      (hform : requestsUserauth q = true) : Replies c q serviceAcceptPayload
  | authFailure (hmsg : msgOf q = msgUserauthRequest) (hstate : c.state = .auth)
      (hform : requestsConnection q = true) (hpass : offersPassword q = false) :
      Replies c q authFailurePayload
  | requestFailure (hmsg : msgOf q = msgGlobalRequest) (hwant : globalWantsReply q = true) :
      Replies c q requestFailurePayload
  | openFailure (hmsg : msgOf q = msgChannelOpen) (hstate : c.state = .conn)
      (hform : opensChannel q = true) (sender : UInt32) :
      Replies c q (openFailurePayload sender c.chan.chanOpen)
  | channelReply (hmsg : msgOf q = msgChannelRequest) (hwant : requestWantsReply q = true)
      (hstate : c.state = .conn) (hopen : c.chan.chanOpen = true) (ok : Bool) :
      Replies c q (channelReplyPayload (if ok then msgChannelSuccess else msgChannelFailure)
        c.chan.remoteChan)
  | unimplemented (seq : UInt32) : Replies c q (unimplementedPayload seq)

/-- A server `KEXINIT` stands for the exchange that begins: an earlier one, or the
one just sent. -/
inductive KexInitDone (s : Session) : Session → Prop
  | earlier (h : s.conn.kx.kexInitSent = true) : KexInitDone s s
  | sent {p : Bytes} {t : Session} (h : s.conn.kx.kexInitSent = false)
      (hform : IsServerKexInit p)
      (hsent : Emits p ⟨{ s.conn with
        kx := { s.conn.kx with serverKexInit := some p, kexInitSent := true } }, s.log⟩ 0 t) :
      KexInitDone s t

/-- `SendKexInit` has failed: a call did, or the transport. -/
inductive KexInitFails (E : Env) (s : Session) : Session → Prop
  | noCookie (hcause : ¬ E.Reliable) : KexInitFails E s ⟨s.conn, .kexInitFailed :: s.log⟩
  | noMemory (hcause : ¬ E.Reliable) : KexInitFails E s
      ⟨{ s.conn with kx := { s.conn.kx with serverKexInit := none } }, .kexInitFailed :: s.log⟩
  | lost {p : Bytes} {r : Int} {t : Session} (hmsg : msgOf p = msgKexinit) (hr : r ≠ 0)
      (hlost : Emits p ⟨{ s.conn with
        kx := { s.conn.kx with serverKexInit := some p, kexInitSent := true } }, s.log⟩ r t)
      (hcause : E.Reliable → t.conn.state = .closed) : KexInitFails E s t

/-- The fields of `Exchange` that `Negotiate` leaves alone. -/
def SameTranscript (k k' : Exchange) : Prop :=
  k'.clientKexInit = k.clientKexInit ∧ k'.serverKexInit = k.serverKexInit ∧
    k'.sessionId = k.sessionId

/-- Before the key exchange proper. -/
def Conn.awaitsKexInit (c : Conn) : Prop := c.kex = .idle ∨ c.kex = .waitKexinit

/-- The packet has arrived as a whole and its MAC is right. -/
structure Arrives (E : Env) (s : Session) (p packet mac : Bytes) : Prop where
  payload : ∃ len, p = (packet.drop 5).take len
  fits : p.length ≤ sshMaxPacket
  mac : s.conn.inDir.active = true →
    mac = macOf E { s.conn.inDir with seq := s.conn.inDir.seq - 1 } packet
  ne_closed : s.conn.state ≠ .closed
  ne_version : s.conn.state ≠ .version

def Session.dispatched (s : Session) (p packet mac : Bytes) : Session :=
  ⟨s.conn, .dispatch p packet mac s.conn :: s.log⟩

def Session.withKx (s : Session) (kx : Exchange) : Session := ⟨{ s.conn with kx := kx }, s.log⟩

/-- What becomes of the client's `KEXINIT` `q`. -/
inductive HandlesKexInit (E : Env) (q : Bytes) (s : Session) : Session → Prop
  | unexpected {t : Session} (hkex : ¬ s.conn.awaitsKexInit) (hend : Farewell s t) :
      HandlesKexInit E q s t
  | noMemory {t : Session} (hkex : s.conn.awaitsKexInit)
      (hend : Farewell (s.withKx { s.conn.kx with clientKexInit := none }) t) :
      HandlesKexInit E q s t
  | failed {t : Session} (hkex : s.conn.awaitsKexInit) (hnew : s.conn.kx.kexInitSent = false)
      (hfail : KexInitFails E (s.withKx { s.conn.kx with clientKexInit := some q }) t) :
      HandlesKexInit E q s t
  | notNegotiated {t t' : Session} (k : Exchange) (hkex : s.conn.awaitsKexInit)
      (hdone : KexInitDone (s.withKx { s.conn.kx with clientKexInit := some q }) t)
      (hsame : SameTranscript t.conn.kx k) (hsent : k.kexInitSent = false)
      (hend : Farewell (t.withKx k) t') : HandlesKexInit E q s t'
  | negotiated {t : Session} (k : Exchange) (hkex : s.conn.awaitsKexInit)
      (hdone : KexInitDone (s.withKx { s.conn.kx with clientKexInit := some q }) t)
      (hsame : SameTranscript t.conn.kx k) (hsent : k.kexInitSent = false) (hchosen : Chosen q k) :
      HandlesKexInit E q s ⟨{ t.conn with kx := k, kex := .waitDh }, t.log⟩

/-- The public key and the secret that come of one key pair and the client's public
key. -/
def Agreed (E : Env) (qc qs k : Bytes) : Prop :=
  ∃ mine, qs = (E.curvePublic mine).toList ∧ k = E.curveShared mine qc ∧ k.length = 32

/-- `DoKexDh`, handling the `KEXDH_INIT` `q`, hashes `x`. -/
structure Exchanges (E : Env) (s : Session) (q : Bytes) (x : Transcript) : Prop where
  handling : Handling s q
  msg : msgOf q = msgKexdhInit
  kex : s.conn.kex = .waitDh
  ne_closed : s.conn.state ≠ .closed
  ne_version : s.conn.state ≠ .version
  clientVersion : x.clientVersion = s.conn.clientVersion
  serverVersion : x.serverVersion = ascii sshServerVersion
  clientKexInit : s.conn.kx.clientKexInit = some x.clientKexInit
  serverKexInit : s.conn.kx.serverKexInit = some x.serverKexInit
  ks : x.ks = hostKeyBlob s.conn.hostPub
  qc : CarriesKey q x.qc
  agreed : Agreed E x.qc x.qs x.k

/-- The exchange hash is computed, and it is the session id unless there is one. -/
def Session.exchanged (E : Env) (s : Session) (x : Transcript) : Session :=
  ⟨{ s.conn with kx := { s.conn.kx with sessionId := some (s.conn.kx.sessionId.getD (x.hash E)) } },
    .exchange x s.conn :: s.log⟩

/-- The keys behind `NEWKEYS`: the outgoing ones are in use, the incoming ones wait. -/
def Conn.switched (c : Conn) (derive : Char → ℕ → Bytes) : Conn :=
  { c with
    outDir := { c.outDir with
      aes := ⟨(derive 'D' 32).take c.kx.nextEncKeyLenOut, derive 'B' 16, 0⟩
      macKey := derive 'F' 64
      macType := c.kx.nextMacTypeOut
      active := true }
    pend := {
      pendKey := derive 'C' 32
      pendIv := derive 'A' 16
      pendMac := derive 'E' 64
      pendKeyLen := c.kx.nextEncKeyLenIn
      pendMacType := c.kx.nextMacTypeIn }
    kex := .waitNewkeys }

/-- The rest of `DoKexDh`, with `sessionId` as the session id. -/
inductive ExchangeEnds (E : Env) (x : Transcript) (sessionId : Bytes) (s : Session) : Session → Prop
  | unsigned {t : Session} (hend : Farewell s t) : ExchangeEnds E x sessionId s t
  | replyLost {r : Int} {t : Session} (hr : r ≠ 0) (hreply : Emits (x.reply E s.conn) s r t)
      (hcause : E.Reliable → t.conn.state = .closed) : ExchangeEnds E x sessionId s t
  | newKeysLost {r : Int} {t t' : Session} (hr : r ≠ 0) (hreply : Emits (x.reply E s.conn) s 0 t)
      (hkeys : Emits newkeysPayload t r t') (hcause : E.Reliable → t'.conn.state = .closed) :
      ExchangeEnds E x sessionId s t'
  | newKeysFailed {t t' t'' : Session} (hreply : Emits (x.reply E s.conn) s 0 t)
      (hkeys : Emits newkeysPayload t 0 t') (hcause : ∃ calls, E.aesSetKeyOk calls = false)
      (hend : Farewell t' t'') : ExchangeEnds E x sessionId s t''
  | switched {t t' : Session} (hreply : Emits (x.reply E s.conn) s 0 t)
      (hkeys : Emits newkeysPayload t 0 t') : ExchangeEnds E x sessionId s
      ⟨t'.conn.switched (deriveKey E sessionId x.kMp (x.hash E)), t'.log⟩

/-- The incoming keys in use; the ones that waited are wiped. -/
def Conn.installed (c : Conn) : Conn :=
  { c with
    inDir := { c.inDir with
      aes := ⟨c.pend.pendKey.take c.pend.pendKeyLen, c.pend.pendIv, 0⟩
      macKey := c.pend.pendMac
      macType := c.pend.pendMacType
      active := true }
    pend := { c.pend with
      pendKey := List.replicate 32 0
      pendMac := List.replicate 64 0 }
    kex := .idle
    state := if c.state = .kex then .auth else c.state }

/-- What becomes of the client's `NEWKEYS`. -/
inductive HandlesNewKeys (s : Session) : Session → Prop
  | unexpected {t : Session} (hkex : s.conn.kex ≠ .waitNewkeys) (hend : Farewell s t) :
      HandlesNewKeys s t
  | failed {t : Session} (hkex : s.conn.kex = .waitNewkeys) (hend : Farewell s t) :
      HandlesNewKeys s t
  | applied (hkex : s.conn.kex = .waitNewkeys) : HandlesNewKeys s ⟨s.conn.installed, s.log⟩

/-- The three messages of the close handshake. -/
inductive CloseHandshake (exitStatus : UInt32) (s : Session) : Session → Prop
  | intro {r₁ r₂ r₃ : Int} {t₁ t₂ t₃ : Session}
      (hexit : Emits (exitStatusPayload s.conn.chan.remoteChan exitStatus)
        ⟨s.conn, .closing s.conn :: s.log⟩ r₁ t₁)
      (heof : Emits (channelReplyPayload msgChannelEof s.conn.chan.remoteChan) t₁ r₂ t₂)
      (hclose : Emits (channelReplyPayload msgChannelClose s.conn.chan.remoteChan) t₂ r₃ t₃) :
      CloseHandshake exitStatus s
        ⟨{ t₃.conn with chan := { t₃.conn.chan with closeSent := true } }, t₃.log⟩

/-- Up to `max` bytes are taken off the ring. -/
def Session.popped (s : Session) (max : ℕ) : Session :=
  ⟨{ s.conn with
      inRing := (s.conn.inRing.popUpTo max).2
      consumed := s.conn.consumed + UInt32.ofNat (s.conn.inRing.popUpTo max).1.length },
    .popped (s.conn.inRing.popUpTo max).1 s.conn :: s.log⟩

/-- What becomes of the credit behind a read. -/
inductive Credits (s : Session) : Session → Prop
  | held (h : ¬ (halfWindow ≤ s.conn.consumed ∧ canSendNow s.conn = true)) : Credits s s
  | sent {t : Session} (hsend : canSendNow s.conn = true)
      (h : Emits (windowAdjustPayload s.conn.chan.remoteChan s.conn.consumed) s 0 t) :
      Credits s ⟨{ t.conn with consumed := 0 }, t.log⟩
  | lost {r : Int} {t : Session} (hsend : canSendNow s.conn = true)
      (h : Emits (windowAdjustPayload s.conn.chan.remoteChan s.conn.consumed) s r t)
      (hr : r ≠ 0) : Credits s t

/-- The steps; `A` says whether the calls of the API act too, or only what arrives. -/
inductive StepOf (A : Prop) (E : Env) (s : Session) : Session → Prop
  -- receiving
  | decrypt (pos : ℕ) (seq : UInt32) : StepOf A E s
      ⟨{ s.conn with inDir := s.conn.inDir.moved pos seq }, s.log⟩
  | dispatch (p packet mac : Bytes) (h : Arrives E s p packet mac)
      (hother : msgOf p ≠ msgKexinit ∧ msgOf p ≠ msgNewkeys)
      (hkeep : s.conn.discards p = false) : StepOf A E s (s.dispatched p packet mac)
  | close : StepOf A E s ⟨{ s.conn with state := .closed }, s.log⟩
  | disconnect {t : Session} (h : Farewell s t) : StepOf A E s t
  | reply {q p : Bytes} {r : Int} {t : Session} (hq : Handling s q) (hp : Replies s.conn q p)
      (h : Emits p s r t) : StepOf A E s t
  -- version and key exchange
  | versionSent [hcall : Fact A] : StepOf A E s
      ⟨{ s.conn with versionSent := true },
        .versionSent (ascii sshServerVersion ++ [cr, lf]) :: s.log⟩
  | acceptVersion (line : Bytes) (hstate : s.conn.state = .version)
      (hfits : line.length + 1 ≤ clientVersionSize) (hssh : isSshLine line = true) : StepOf A E s
      ⟨{ s.conn with clientVersion := line, state := .kex, kex := .waitKexinit }, s.log⟩
  | firstKexInit {t : Session} (hstate : s.conn.state = .kex) (hkex : s.conn.kex = .waitKexinit)
      (hnew : s.conn.kx.kexInitSent = false) (h : KexInitDone s t) : StepOf A E s t
  | firstKexInitFailed {t : Session} (hkex : s.conn.kex = .waitKexinit)
      (hnew : s.conn.kx.kexInitSent = false) (h : KexInitFails E s t) : StepOf A E s t
  | kexInit {q packet mac : Bytes} {t : Session} (h : Arrives E s q packet mac)
      (hmsg : msgOf q = msgKexinit) (hend : HandlesKexInit E q (s.dispatched q packet mac) t) :
      StepOf A E s t
  | skipGuess {p packet mac : Bytes} (h : Arrives E s p packet mac)
      (hskip : s.conn.discards p = true) : StepOf A E s
      ((s.dispatched p packet mac).withKx { s.conn.kx with ignoreNextKexPacket := false })
  | exchange {q : Bytes} {t : Session} (x : Transcript) (hx : Exchanges E s q x)
      (hend : ExchangeEnds E x (s.conn.kx.sessionId.getD (x.hash E)) (s.exchanged E x) t) :
      StepOf A E s t
  | newKeys {q packet mac : Bytes} {t : Session} (h : Arrives E s q packet mac)
      (hmsg : msgOf q = msgNewkeys) (hend : HandlesNewKeys (s.dispatched q packet mac) t) :
      StepOf A E s t
  -- authentication
  | setUser (user : Bytes) (hstate : s.conn.state = .auth) : StepOf A E s
      ⟨{ s.conn with login := { s.conn.login with user := user } }, s.log⟩
  | authAccepted {q pass : Bytes} {r : Int} {t : Session} (hq : Handling s q)
      (hmsg : msgOf q = msgUserauthRequest) (hstate : s.conn.state = .auth)
      (hform : requestsConnection q = true)
      (h : Emits authSuccessPayload
        ⟨{ s.conn with login := { s.conn.login with authenticated := true }, state := .conn },
          .auth (cString s.conn.login.user) pass true s.conn :: s.log⟩ r t) : StepOf A E s t
  | authRejected {q pass : Bytes} {r : Int} {t : Session} (hq : Handling s q)
      (hmsg : msgOf q = msgUserauthRequest) (hstate : s.conn.state = .auth)
      (hform : requestsConnection q = true)
      (htries : s.conn.login.authTries + 1 < sshMaxAuthTries)
      (h : Emits authFailurePayload
        ⟨{ s.conn with login := { s.conn.login with authTries := s.conn.login.authTries + 1 } },
          .auth (cString s.conn.login.user) pass false s.conn :: s.log⟩ r t) : StepOf A E s t
  | authExhausted {pass : Bytes} {t : Session} (hstate : s.conn.state = .auth)
      (htries : sshMaxAuthTries ≤ s.conn.login.authTries + 1)
      (h : Farewell
        ⟨{ s.conn with login := { s.conn.login with authTries := s.conn.login.authTries + 1 } },
          .auth (cString s.conn.login.user) pass false s.conn :: s.log⟩ t) : StepOf A E s t
  -- the channel
  | openChannel {q : Bytes} {r : Int} {t : Session} (sender window maxPkt : UInt32)
      (hq : Handling s q) (hmsg : msgOf q = msgChannelOpen) (hstate : s.conn.state = .conn)
      (hform : opensChannel q = true) (hopen : s.conn.chan.chanOpen = false)
      (h : Emits (openConfirmPayload sender)
        ⟨{ s.conn with chan := { s.conn.chan with
            chanOpen := true
            remoteChan := sender
            remoteWindow := window
            remoteMaxPkt := maxPkt
            closeSent := false
            closeRecv := false
            remoteEof := false } }, .opened window maxPkt :: s.log⟩ r t) : StepOf A E s t
  | resize {q : Bytes} (cols rows : UInt32) (hq : Handling s q) (hsize : tellsSize q = true)
      (hstate : s.conn.state = .conn) (hopen : s.conn.chan.chanOpen = true) : StepOf A E s
      ⟨{ s.conn with chan := setSize cols rows s.conn.chan }, s.log⟩
  | shell (hstate : s.conn.state = .conn) (hopen : s.conn.chan.chanOpen = true) : StepOf A E s
      ⟨{ s.conn with chan := { s.conn.chan with shellReady := true } }, s.log⟩
  | data (d : Bytes) (hopen : s.conn.chan.chanOpen = true) : StepOf A E s
      ⟨ringPush s.conn d, .received d s.conn :: s.log⟩
  | adjust (add : UInt32) : StepOf A E s
      ⟨{ s.conn with chan :=
          { s.conn.chan with remoteWindow := s.conn.chan.remoteWindow + add } },
        .adjusted add :: s.log⟩
  | clientEof : StepOf A E s
      ⟨{ s.conn with chan := { s.conn.chan with remoteEof := true } }, s.log⟩
  | clientClose : StepOf A E s
      ⟨{ s.conn with chan := { s.conn.chan with closeRecv := true } }, s.log⟩
  | closeReply {q : Bytes} {r : Int} {t : Session} (hq : Handling s q)
      (hmsg : msgOf q = msgChannelClose) (hopen : s.conn.chan.chanOpen = true)
      (hfirst : s.conn.chan.closeSent = false)
      (h : Emits (channelReplyPayload msgChannelClose s.conn.chan.remoteChan)
        ⟨{ s.conn with chan := { s.conn.chan with closeSent := true } }, s.log⟩ r t) :
      StepOf A E s t
  -- the API
  | accepted [hcall : Fact A] (h : s.conn.chan.shellReady = true) : StepOf A E s
      ⟨s.conn, .accepted :: s.log⟩
  | readEnd [hcall : Fact A] (h : ringEmpty s.conn = true) : StepOf A E s
      ⟨s.conn, .readEnd s.conn :: s.log⟩
  | read [hcall : Fact A] (max : ℕ) {t : Session} (h : ringEmpty s.conn = false)
      (hcredit : Credits (s.popped max) t) : StepOf A E s t
  | writeData [hcall : Fact A] {t : Session} (d : Bytes) (hsend : canSendNow s.conn = true)
      (hclose : s.conn.chan.closeRecv = false)
      (hwindow : d.length ≤ s.conn.chan.remoteWindow.toNat)
      (hmax : d.length ≤ min s.conn.chan.remoteMaxPkt.toNat sshDataChunk)
      (h : Emits (channelDataPayload s.conn.chan.remoteChan d).data s 0 t) : StepOf A E s
      ⟨{ t.conn with chan :=
          { t.conn.chan with
            remoteWindow := t.conn.chan.remoteWindow - UInt32.ofNat d.length } }, t.log⟩
  | writeLost [hcall : Fact A] {r : Int} {t : Session} (d : Bytes)
      (hsend : canSendNow s.conn = true)
      (h : Emits (channelDataPayload s.conn.chan.remoteChan d).data s r t) (hr : r ≠ 0) :
      StepOf A E s t
  | startClose [hcall : Fact A] {t : Session} (exitStatus : UInt32) (hstate : s.conn.state = .conn)
      (hopen : s.conn.chan.chanOpen = true) (hfirst : s.conn.chan.closeSent = false)
      (h : CloseHandshake exitStatus s t) : StepOf A E s t

/-- A step of the connection, whoever takes it. -/
abbrev Step : Env → Session → Session → Prop := StepOf True

instance factTrue : Fact True := ⟨trivial⟩

/-- Any number of steps. -/
def StepsOf (A : Prop) (E : Env) : Session → Session → Prop :=
  Relation.ReflTransGen (StepOf A E)

abbrev Steps : Env → Session → Session → Prop := StepsOf True

variable {A : Prop} {E : Env} {p : Bytes} {r : Int} {s t u : Session}

theorem StepOf.steps (h : StepOf A E s t) : StepsOf A E s t := Relation.ReflTransGen.single h

theorem StepsOf.refl (s : Session) : StepsOf A E s s := Relation.ReflTransGen.refl

theorem StepsOf.trans (h : StepsOf A E s t) (h' : StepsOf A E t u) : StepsOf A E s u :=
  Relation.ReflTransGen.trans h h'

theorem StepOf.step (h : StepOf A E s t) : Step E s t := by
  cases h with
  | decrypt pos seq => exact .decrypt pos seq
  | dispatch p packet mac h hother hkeep => exact .dispatch p packet mac h hother hkeep
  | close => exact .close
  | disconnect h => exact .disconnect h
  | reply hq hp h => exact .reply hq hp h
  | versionSent => exact .versionSent
  | acceptVersion line hstate hfits hssh => exact .acceptVersion line hstate hfits hssh
  | firstKexInit hstate hkex hnew h => exact .firstKexInit hstate hkex hnew h
  | firstKexInitFailed hkex hnew h => exact .firstKexInitFailed hkex hnew h
  | kexInit h hmsg hend => exact .kexInit h hmsg hend
  | skipGuess h hskip => exact .skipGuess h hskip
  | exchange x hx hend => exact .exchange x hx hend
  | newKeys h hmsg hend => exact .newKeys h hmsg hend
  | setUser user hstate => exact .setUser user hstate
  | authAccepted hq hmsg hstate hform h => exact .authAccepted hq hmsg hstate hform h
  | authRejected hq hmsg hstate hform htries h => exact .authRejected hq hmsg hstate hform htries h
  | authExhausted hstate htries h => exact .authExhausted hstate htries h
  | openChannel sender window maxPkt hq hmsg hstate hform hopen h =>
      exact .openChannel sender window maxPkt hq hmsg hstate hform hopen h
  | resize cols rows hq hsize hstate hopen => exact .resize cols rows hq hsize hstate hopen
  | shell hstate hopen => exact .shell hstate hopen
  | data d hopen => exact .data d hopen
  | adjust add => exact .adjust add
  | clientEof => exact .clientEof
  | clientClose => exact .clientClose
  | closeReply hq hmsg hopen hfirst h => exact .closeReply hq hmsg hopen hfirst h
  | accepted h => exact .accepted h
  | readEnd h => exact .readEnd h
  | read max h hcredit => exact .read max h hcredit
  | writeData d hsend hclose hwindow hmax h => exact .writeData d hsend hclose hwindow hmax h
  | writeLost d hsend h hr => exact .writeLost d hsend h hr
  | startClose exitStatus hstate hopen hfirst h =>
      exact .startClose exitStatus hstate hopen hfirst h

/-! ## Frames

A send touches the outgoing cipher and the log, and closes the connection when
the transport fails; a farewell does the same and always closes it. -/

theorem Emits.conn_eq (h : Emits p s r t) : ∃ pos seq state,
    (state = s.conn.state ∨ state = .closed) ∧
      t.conn = { s.conn with outDir := s.conn.outDir.moved pos seq, state := state } := by
  cases h with
  | sent pos seq => exact ⟨pos, seq, _, .inl rfl, rfl⟩
  | refused => exact ⟨s.conn.outDir.aes.pos, s.conn.outDir.seq, _, .inl rfl, rfl⟩
  | lost pos seq => exact ⟨pos, seq, _, .inr rfl, rfl⟩

theorem Emits.log_eq (h : Emits p s r t) :
    (r = 0 ∧ t.log = .sent p s.conn :: s.log) ∨
      (r ≠ 0 ∧ t.log = .sendFailed p t.conn :: s.log) := by
  cases h with
  | sent => exact .inl ⟨rfl, rfl⟩
  | refused => exact .inr ⟨by decide, rfl⟩
  | lost => exact .inr ⟨by decide, rfl⟩

/-- Only an open connection sends. -/
theorem Emits.ne_closed (h : Emits p s r t) (hr : r = 0) : s.conn.state ≠ .closed := by
  cases h with
  | sent _ _ hopen => exact hopen
  | refused | lost => cases hr

/-- What sending leaves alone. -/
structure SendFrame (c c' : Conn) : Prop where
  state : c'.state = c.state ∨ c'.state = .closed
  kex : c'.kex = c.kex
  kx : c'.kx = c.kx
  inDir : c'.inDir = c.inDir
  outActive : c'.outDir.active = c.outDir.active
  inRing : c'.inRing = c.inRing
  consumed : c'.consumed = c.consumed
  chan : c'.chan = c.chan
  login : c'.login = c.login
  outKeys : c'.outDir.keys = c.outDir.keys
  pend : c'.pend = c.pend
  clientVersion : c'.clientVersion = c.clientVersion
  host : c'.hostSeed = c.hostSeed ∧ c'.hostPub = c.hostPub

theorem SendFrame.refl (c : Conn) : SendFrame c c :=
  ⟨.inl rfl, rfl, rfl, rfl, rfl, rfl, rfl, rfl, rfl, rfl, rfl, rfl, rfl, rfl⟩

theorem SendFrame.close (c : Conn) : SendFrame c { c with state := .closed } :=
  ⟨.inr rfl, rfl, rfl, rfl, rfl, rfl, rfl, rfl, rfl, rfl, rfl, rfl, rfl, rfl⟩

theorem SendFrame.trans {c c' c'' : Conn} (h : SendFrame c c') (h' : SendFrame c' c'') :
    SendFrame c c'' where
  state := h'.state.elim (fun heq => heq ▸ h.state) .inr
  kex := h'.kex.trans h.kex
  kx := h'.kx.trans h.kx
  inDir := h'.inDir.trans h.inDir
  outActive := h'.outActive.trans h.outActive
  inRing := h'.inRing.trans h.inRing
  consumed := h'.consumed.trans h.consumed
  chan := h'.chan.trans h.chan
  login := h'.login.trans h.login
  outKeys := h'.outKeys.trans h.outKeys
  pend := h'.pend.trans h.pend
  clientVersion := h'.clientVersion.trans h.clientVersion
  host := ⟨h'.host.1.trans h.host.1, h'.host.2.trans h.host.2⟩

/-- A packet with message number `m` was sent. -/
def Event.isSent (m : UInt8) : Event → Bool
  | .sent p _ => msgOf p = m
  | _ => false

theorem Event.isSent_iff {m : UInt8} {e : Event} :
    e.isSent m = true ↔ ∃ p c, e = .sent p c ∧ msgOf p = m := by
  cases e <;> simp [Event.isSent]

/-- An event of the sending side that sends at most a message in `P`, and that only over
an open connection `c₀` and with its keys. -/
def Event.sendsIn (P : UInt8 → Prop) (c₀ : Conn) (e : Event) : Prop :=
  e.isSend = true ∧ ∀ p c, e = .sent p c →
    P (msgOf p) ∧ c.outDir.keys = c₀.outDir.keys ∧ c₀.state ≠ .closed

/-- Some sends of messages in `P`: the log grows by events of the sending side. -/
structure Sends (P : UInt8 → Prop) (s t : Session) : Prop where
  frame : SendFrame s.conn t.conn
  log : ∃ es, t.log = es ++ s.log ∧ ∀ e ∈ es, e.sendsIn P s.conn

section Sends

variable {P : UInt8 → Prop}

theorem Event.sendsIn.mono {Q : UInt8 → Prop} {c₀ : Conn} {e : Event} (h : e.sendsIn P c₀)
    (hPQ : ∀ m, P m → Q m) : e.sendsIn Q c₀ :=
  ⟨h.1, fun p c heq => ⟨hPQ _ (h.2 p c heq).1, (h.2 p c heq).2⟩⟩

theorem Sends.refl (s : Session) : Sends P s s := ⟨.refl _, [], rfl, by simp⟩

theorem Sends.trans (h : Sends P s t) (h' : Sends P t u) : Sends P s u := by
  obtain ⟨es, hes, hsend⟩ := h.log
  obtain ⟨es', hes', hsend'⟩ := h'.log
  refine ⟨h.frame.trans h'.frame, es' ++ es, ?_, fun e he => ?_⟩
  · rw [hes', hes, List.append_assoc]
  · refine (List.mem_append.mp he).elim (fun he => ⟨(hsend' e he).1, fun p c heq => ?_⟩) (hsend e)
    obtain ⟨hp, hkeys, hopen⟩ := (hsend' e he).2 p c heq
    exact ⟨hp, hkeys.trans h.frame.outKeys, fun hs =>
      hopen (h.frame.state.elim (fun heq => heq.trans hs) id)⟩

theorem Sends.mono {Q : UInt8 → Prop} (h : Sends P s t) (hPQ : ∀ m, P m → Q m) : Sends Q s t := by
  obtain ⟨es, hes, hsend⟩ := h.log
  exact ⟨h.frame, es, hes, fun e he => (hsend e he).mono hPQ⟩

/-- What is read off other events stays the same. -/
theorem Sends.filterMap {α : Type} (h : Sends P s t) {f : Event → Option α}
    (hf : ∀ e, e.isSend = true → (∀ p c, e = .sent p c → P (msgOf p)) → f e = none) :
    t.log.filterMap f = s.log.filterMap f := by
  obtain ⟨es, hes, hsend⟩ := h.log
  rw [hes, List.filterMap_append, List.filterMap_eq_nil_iff.mpr, List.nil_append]
  exact fun e he => hf e (hsend e he).1 fun p c heq => ((hsend e he).2 p c heq).1

/-- Messages outside `P` are not among these sends. -/
theorem Sends.countP_sent (h : Sends P s t) {m : UInt8} (hm : ¬ P m) :
    t.log.countP (Event.isSent m) = s.log.countP (Event.isSent m) := by
  obtain ⟨es, hes, hsend⟩ := h.log
  rw [hes, List.countP_append, List.countP_eq_zero.mpr, Nat.zero_add]
  intro e he hsent
  obtain ⟨p, c, rfl, hp⟩ := Event.isSent_iff.mp hsent
  exact hm (hp ▸ ((hsend _ he).2 p c rfl).1)

theorem Sends.mem_iff (h : Sends P s t) {e : Event} (he : e.isSend = false) :
    e ∈ t.log ↔ e ∈ s.log := by
  obtain ⟨es, hes, hsend⟩ := h.log
  rw [hes, List.mem_append, or_iff_right]
  intro hmem
  rw [(hsend e hmem).1] at he
  cases he

theorem Sends.close (s : Session) : Sends P s ⟨{ s.conn with state := .closed }, s.log⟩ :=
  ⟨.close s.conn, [], rfl, by simp⟩

end Sends

theorem Emits.sends (h : Emits p s r t) : Sends (· = msgOf p) s t := by
  obtain ⟨_, _, _, hstate, heq⟩ := h.conn_eq
  refine ⟨?_, ?_⟩
  · rw [heq]
    exact ⟨hstate, rfl, rfl, rfl, rfl, rfl, rfl, rfl, rfl, rfl, rfl, rfl, rfl, rfl⟩
  · rcases h.log_eq with ⟨hr, hlog⟩ | ⟨-, hlog⟩
    · exact ⟨[_], hlog, by simp [Event.sendsIn, Event.isSend, h.ne_closed hr]⟩
    · exact ⟨[_], hlog, by simp [Event.sendsIn, Event.isSend]⟩

/-- The message numbers of the answers. -/
def replyMessages : List UInt8 :=
  [msgServiceAccept, msgUserauthFailure, msgRequestFailure, msgChannelOpenFailure,
    msgChannelSuccess, msgChannelFailure, msgUnimplemented]

theorem Replies.msg_mem {c : Conn} {q : Bytes} (h : Replies c q p) : msgOf p ∈ replyMessages := by
  cases h with
  | channelReply _ _ _ _ ok => cases ok <;> simp [replyMessages]
  | _ => simp [replyMessages]

theorem Farewell.sends (h : Farewell s t) : Sends (· = msgDisconnect) s t := by
  cases h with
  | already => exact .refl s
  | sent hopen h =>
      obtain ⟨hframe, hlog⟩ := h.sends
      rw [msgOf_disconnectPayload] at hlog
      exact ⟨hframe.trans (.close _), hlog⟩

theorem Emits.frame (h : Emits p s r t) : SendFrame s.conn t.conn := h.sends.frame

theorem Farewell.frame (h : Farewell s t) : SendFrame s.conn t.conn := h.sends.frame

theorem Farewell.closed (h : Farewell s t) : t.conn.state = .closed := by
  cases h with
  | already h => exact h
  | sent => rfl

/-- The close handshake sends and then marks the channel. -/
theorem CloseHandshake.sends {exitStatus : UInt32} (h : CloseHandshake exitStatus s t) :
    ∃ u, Sends (· ∈ [msgChannelRequest, msgChannelEof, msgChannelClose]) s u ∧
      t = ⟨{ u.conn with chan := { u.conn.chan with closeSent := true } }, u.log⟩ := by
  obtain ⟨hexit, heof, hclose⟩ := h
  have hstart : Sends (· ∈ [msgChannelRequest, msgChannelEof, msgChannelClose]) s
      ⟨s.conn, .closing s.conn :: s.log⟩ :=
    ⟨.refl _, [_], rfl, by simp [Event.sendsIn, Event.isSend]⟩
  refine ⟨_, ((hstart.trans (hexit.sends.mono ?_)).trans (heof.sends.mono ?_)).trans
    (hclose.sends.mono ?_), rfl⟩
  · rintro m rfl
    simp
  · rintro m rfl
    simp
  · rintro m rfl
    simp

/-- Returning credit sends at most a `WINDOW_ADJUST`. -/
theorem Credits.sends (h : Credits s t) : ∃ u consumed,
    Sends (· = msgChannelWindowAdjust) s u ∧
      t = ⟨{ u.conn with consumed := consumed }, u.log⟩ := by
  cases h with
  | held => exact ⟨s, s.conn.consumed, .refl s, rfl⟩
  | @sent u _ h => exact ⟨u, 0, msgOf_windowAdjustPayload _ _ ▸ h.sends, rfl⟩
  | lost _ h => exact ⟨t, t.conn.consumed, msgOf_windowAdjustPayload _ _ ▸ h.sends, rfl⟩

/-- Before the negotiation at most a `KEXINIT` is sent and kept. -/
theorem KexInitDone.sends (h : KexInitDone s t) :
    ∃ server sent, Sends (· = msgKexinit) ⟨{ s.conn with kx :=
      { s.conn.kx with serverKexInit := server, kexInitSent := sent } }, s.log⟩ t := by
  cases h with
  | earlier => exact ⟨s.conn.kx.serverKexInit, s.conn.kx.kexInitSent, .refl _⟩
  | sent _ hform h => exact ⟨_, _, hform.msgOf ▸ h.sends⟩

/-- The same when `SendKexInit` fails. -/
theorem KexInitFails.sends (h : KexInitFails E s t) :
    ∃ server sent, Sends (· = msgKexinit)
      (s.withKx { s.conn.kx with serverKexInit := server, kexInitSent := sent }) t := by
  cases h with
  | noCookie =>
      exact ⟨s.conn.kx.serverKexInit, s.conn.kx.kexInitSent, .refl _, [_], rfl,
        by simp [Event.sendsIn, Event.isSend]⟩
  | noMemory =>
      exact ⟨none, s.conn.kx.kexInitSent, .refl _, [_], rfl, by simp [Event.sendsIn, Event.isSend]⟩
  | lost hmsg _ hlost => exact ⟨_, _, hmsg ▸ hlost.sends⟩

theorem KexInitDone.clientKexInit (h : KexInitDone s t) :
    t.conn.kx.clientKexInit = s.conn.kx.clientKexInit := by
  cases h with
  | earlier => rfl
  | sent _ _ h => rw [h.frame.kx]

theorem KexInitDone.serverKexInit (h : KexInitDone s t)
    (hsent : s.conn.kx.kexInitSent = true → s.conn.kx.serverKexInit ≠ none) :
    t.conn.kx.serverKexInit ≠ none := by
  cases h with
  | earlier h => exact hsent h
  | sent _ _ h =>
      rw [h.frame.kx]
      exact Option.some_ne_none _

theorem KexInitDone.kex (h : KexInitDone s t) : t.conn.kex = s.conn.kex := by
  cases h with
  | earlier => rfl
  | sent _ _ h => exact h.frame.kex

theorem KexInitDone.state_eq (h : KexInitDone s t) : t.conn.state = s.conn.state := by
  cases h with
  | earlier => rfl
  | sent _ _ h =>
      cases h
      rfl

theorem KexInitDone.kexInitSent (h : KexInitDone s t) : t.conn.kx.kexInitSent = true := by
  cases h with
  | earlier h => exact h
  | sent _ _ h =>
      cases h
      rfl

/-! ## Key exchange steps

What a session keeps under sends and under changes of `Exchange` it keeps while a
`KEXINIT` is handled; for the other two messages it also has to bear the new keys. -/

section KeyExchange

variable {I : Session → Prop} {q : Bytes}

/-- What `SendKexInit` keeps. -/
theorem KexInitFails.keeps (h : KexInitFails E s t) (hkx : ∀ u kx, I u → I (u.withKx kx))
    (hsends : ∀ u v, Sends (· = msgKexinit) u v → I u → I v) (hs : I s) : I t := by
  obtain ⟨server, sent, h⟩ := h.sends
  exact hsends _ _ h (hkx _ _ hs)

theorem KexInitDone.keeps (h : KexInitDone s t) (hkx : ∀ u kx, I u → I (u.withKx kx))
    (hsends : ∀ u v, Sends (· = msgKexinit) u v → I u → I v) (hs : I s) : I t := by
  obtain ⟨server, sent, h⟩ := h.sends
  exact hsends _ _ h (hkx _ _ hs)

theorem HandlesKexInit.keeps (h : HandlesKexInit E q s t) (hkx : ∀ u kx, I u → I (u.withKx kx))
    (hsends : ∀ u v, Sends (· ∈ [msgKexinit, msgDisconnect]) u v → I u → I v)
    (hkex : ∀ u, u.conn.awaitsKexInit → I u → I ⟨{ u.conn with kex := .waitDh }, u.log⟩)
    (hs : I s) : I t := by
  have hinit : ∀ u v, Sends (· = msgKexinit) u v → I u → I v := fun u v h =>
    hsends u v (h.mono fun m hm => by simp [hm])
  have hfarewell : ∀ u v, Farewell u v → I u → I v := fun u v h =>
    hsends u v (h.sends.mono fun m hm => by simp [hm])
  cases h with
  | unexpected _ hend => exact hfarewell _ _ hend hs
  | noMemory _ hend => exact hfarewell _ _ hend (hkx _ _ hs)
  | failed _ _ hfail => exact hfail.keeps hkx hinit (hkx _ _ hs)
  | notNegotiated k _ hdone _ _ hend =>
      exact hfarewell _ _ hend (hkx _ k (hdone.keeps hkx hinit (hkx _ _ hs)))
  | @negotiated u k hawaits hdone =>
      have hu : I (u.withKx k) := hkx _ k (hdone.keeps hkx hinit (hkx _ _ hs))
      refine hkex (u.withKx k) ?_ hu
      unfold Conn.awaitsKexInit at hawaits ⊢
      rw [show (u.withKx k).conn.kex = u.conn.kex from rfl, hdone.kex]
      exact hawaits

theorem ExchangeEnds.keeps {x : Transcript} {sessionId : Bytes}
    (h : ExchangeEnds E x sessionId s t)
    (hsends : ∀ u v, Sends (· ∈ [msgKexdhReply, msgNewkeys, msgDisconnect]) u v → I u → I v)
    (hswitch : ∀ u derive, u.conn.kex = s.conn.kex → I u → I ⟨u.conn.switched derive, u.log⟩)
    (hs : I s) : I t := by
  have hreplied : ∀ u v r, Emits (x.reply E u.conn) u r v → I u → I v := fun u v r h =>
    hsends u v (h.sends.mono fun m hm => by simp [hm, x.msgOf_reply])
  have hrenewed : ∀ u v r, Emits newkeysPayload u r v → I u → I v := fun u v r h =>
    hsends u v (h.sends.mono fun m hm => by simp [hm])
  have hfarewell : ∀ u v, Farewell u v → I u → I v := fun u v h =>
    hsends u v (h.sends.mono fun m hm => by simp [hm])
  cases h with
  | unsigned hend => exact hfarewell _ _ hend hs
  | replyLost _ hreply => exact hreplied _ _ _ hreply hs
  | newKeysLost _ hreply hkeys => exact hrenewed _ _ _ hkeys (hreplied _ _ _ hreply hs)
  | newKeysFailed hreply hkeys _ hend =>
      exact hfarewell _ _ hend (hrenewed _ _ _ hkeys (hreplied _ _ _ hreply hs))
  | switched hreply hkeys =>
      refine hswitch _ _ ?_ (hrenewed _ _ _ hkeys (hreplied _ _ _ hreply hs))
      rw [hkeys.frame.kex, hreply.frame.kex]

theorem HandlesNewKeys.keeps (h : HandlesNewKeys s t)
    (hsends : ∀ u v, Sends (· = msgDisconnect) u v → I u → I v)
    (happly : s.conn.kex = .waitNewkeys → I s → I ⟨s.conn.installed, s.log⟩) (hs : I s) : I t := by
  cases h with
  | unexpected _ hend => exact hsends _ _ hend.sends hs
  | failed _ hend => exact hsends _ _ hend.sends hs
  | applied hkex => exact happly hkex hs

end KeyExchange

/-! ## No `NULL` transcript

`DoKexDh` hashes both `KEXINIT` messages through their pointers, which are only
set on the way to `KEX_WAIT_DH`. -/

structure KexBuffers (kx : Exchange) (kex : KexState) : Prop where
  server_of_sent : kx.kexInitSent = true → kx.serverKexInit ≠ none
  client_of_waitDh : kex = .waitDh → kx.clientKexInit ≠ none
  server_of_waitDh : kex = .waitDh → kx.serverKexInit ≠ none

def Conn.buffers (c : Conn) : Prop := KexBuffers c.kx c.kex

/-- Away from `KEX_WAIT_DH` only a `KEXINIT` already sent matters. -/
theorem KexBuffers.of_ne_waitDh {kx : Exchange} {kex : KexState} (hkex : kex ≠ .waitDh)
    (h : kx.kexInitSent = true → kx.serverKexInit ≠ none) : KexBuffers kx kex :=
  ⟨h, fun hdh => absurd hdh hkex, fun hdh => absurd hdh hkex⟩

theorem Conn.awaitsKexInit.ne_waitDh {c : Conn} (h : c.awaitsKexInit) : c.kex ≠ .waitDh := by
  rcases h with h | h <;> rw [h] <;> decide

theorem SendFrame.buffers {c c' : Conn} (h : SendFrame c c') (hbuf : c.buffers) : c'.buffers := by
  unfold Conn.buffers
  rw [h.kx, h.kex]
  exact hbuf

theorem Session.withKx_buffers {k : Exchange} (hkex : s.conn.kex ≠ .waitDh)
    (h : k.kexInitSent = true → k.serverKexInit ≠ none) : (s.withKx k).conn.buffers :=
  .of_ne_waitDh hkex h

theorem KexInitDone.buffers (h : KexInitDone s t) (hkex : s.conn.kex ≠ .waitDh)
    (hbuf : s.conn.buffers) : t.conn.buffers := by
  refine .of_ne_waitDh ?_ fun _ => h.serverKexInit hbuf.server_of_sent
  rw [h.kex]
  exact hkex

theorem KexInitFails.buffers (h : KexInitFails E s t) (hkex : s.conn.kex ≠ .waitDh)
    (hnew : s.conn.kx.kexInitSent = false) (hbuf : s.conn.buffers) : t.conn.buffers := by
  cases h with
  | noCookie => exact hbuf
  | noMemory =>
      refine .of_ne_waitDh hkex fun hsent => ?_
      rw [hnew] at hsent
      cases hsent
  | lost _ _ hlost =>
      refine .of_ne_waitDh (hlost.frame.kex ▸ hkex) fun _ => ?_
      rw [hlost.frame.kx]
      exact Option.some_ne_none _

theorem HandlesKexInit.buffers {q : Bytes} (h : HandlesKexInit E q s t) (hbuf : s.conn.buffers) :
    t.conn.buffers := by
  have hclient : ∀ b, s.conn.awaitsKexInit →
      (s.withKx { s.conn.kx with clientKexInit := b }).conn.buffers := fun b hkex =>
    Session.withKx_buffers hkex.ne_waitDh hbuf.server_of_sent
  cases h with
  | unexpected _ hend => exact hend.frame.buffers hbuf
  | noMemory hkex hend => exact hend.frame.buffers (hclient none hkex)
  | failed hkex hnew hfail => exact hfail.buffers hkex.ne_waitDh hnew (hclient (some q) hkex)
  | notNegotiated k hkex hdone _ hsent hend =>
      refine hend.frame.buffers (Session.withKx_buffers ?_ fun h => ?_)
      · rw [hdone.kex]
        exact hkex.ne_waitDh
      · rw [hsent] at h
        cases h
  | negotiated k hkex hdone hsame hsent =>
      refine ⟨fun h => ?_, fun _ => ?_, fun _ => ?_⟩
      · rw [hsent] at h
        cases h
      · rw [hsame.1, hdone.clientKexInit]
        exact Option.some_ne_none q
      · rw [hsame.2.1]
        exact hdone.serverKexInit hbuf.server_of_sent

theorem Step.buffers (h : Step E s t) (hbuf : s.conn.buffers) : t.conn.buffers := by
  cases h with
  | disconnect h => exact h.frame.buffers hbuf
  | reply _ _ h | authAccepted _ _ _ _ h | authRejected _ _ _ _ _ h
  | openChannel _ _ _ _ _ _ _ _ h | closeReply _ _ _ _ h | writeLost _ _ h =>
      exact h.frame.buffers hbuf
  | writeData _ _ _ _ _ h => exact h.frame.buffers hbuf
  | read max _ hcredit =>
      obtain ⟨u, consumed, hsends, rfl⟩ := hcredit.sends
      exact hsends.frame.buffers hbuf
  | authExhausted _ _ h => exact h.frame.buffers hbuf
  | startClose _ _ _ _ h =>
      obtain ⟨u, hsends, rfl⟩ := h.sends
      exact hsends.frame.buffers hbuf
  | acceptVersion line hstate hfits => exact .of_ne_waitDh (by simp) hbuf.server_of_sent
  | firstKexInit _ hkex _ hdone => exact hdone.buffers (by rw [hkex]; decide) hbuf
  | firstKexInitFailed hkex hnew hfail => exact hfail.buffers (by rw [hkex]; decide) hnew hbuf
  | kexInit _ _ hend => exact hend.buffers hbuf
  | exchange x hx hend =>
      -- the exchange hash changes only the session id
      have hstart : (s.exchanged E x).conn.buffers :=
        ⟨hbuf.server_of_sent, hbuf.client_of_waitDh, hbuf.server_of_waitDh⟩
      exact hend.keeps (I := fun s => s.conn.buffers) (fun _ _ h => h.frame.buffers)
        (fun _ _ _ hu => .of_ne_waitDh (by simp [Conn.switched]) hu.server_of_sent) hstart
  | newKeys _ _ hend =>
      exact hend.keeps (I := fun s => s.conn.buffers) (fun _ _ h => h.frame.buffers)
        (fun _ _ => .of_ne_waitDh (by simp [Conn.installed]) hbuf.server_of_sent) hbuf
  | skipGuess => exact ⟨hbuf.server_of_sent, hbuf.client_of_waitDh, hbuf.server_of_waitDh⟩
  | _ => exact hbuf

end EfiSshServer
