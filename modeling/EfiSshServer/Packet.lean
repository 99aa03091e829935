import EfiSshServer.Conn

/-!
# The packet layer: `SendPacket`, `Disconnect`, `CanSendNow`

`sendPacket` frames a payload, adds the MAC over the sequence number and the
plain packet, encrypts the packet and hands everything to the transport.
`sendPacket_emits` is all that the rest of the development uses of it: a send
either puts exactly this payload on the wire and moves the outgoing cipher and
sequence number on, or fails, and it closes the connection only when the
transport refuses the bytes.
-/

namespace EfiSshServer

open StateProgram LinkM

/-- XOR with the keystream, taken in order. -/
def aesCtr (E : Env) (a : Aes) (data : Bytes) : Bytes × Aes :=
  (data.zipIdx.map fun x => x.1 ^^^ E.keystream a.key a.iv (a.pos + x.2),
    { a with pos := a.pos + data.length })

/-- The MAC of direction `d` over a packet. -/
def macOf (E : Env) (d : Dir) (packet : Bytes) : Bytes :=
  (E.hmac d.macType (d.macKey.take d.macLen) (putU32 d.seq ++ packet)).toList

/-- The cipher block a direction pads to. -/
def blockOf (d : Dir) : ℕ := if d.active then 16 else 8

/-- The padding of `SendPacket` for a payload of `len` bytes. -/
def padLenOf (blk len : ℕ) : ℕ :=
  let pad := blk - (5 + len) % blk
  if pad < 4 then pad + blk else pad

/-- The packet of a payload before the MAC and encryption. -/
def plainPacket (payload pad : Bytes) : Bytes :=
  putU32 (UInt32.ofNat (1 + payload.length + pad.length)) ++
    UInt8.ofNat pad.length :: (payload ++ pad)

/-- The body of `SendPacket`. -/
def framePacket (E : Env) (payload : Bytes) : LinkM Int := do
  let c ← conn
  if c.state = .closed ∨ payload.length + 64 > sshMaxPacket then return -1
  let padLen := padLenOf (blockOf c.outDir) payload.length
  let some pad ← ask (.random padLen) (E.random · padLen) | return -1
  let packet := plainPacket payload pad.toList
  if c.outDir.active then
    if !(← ask .hmac E.hmacOk) then return -1
    if !(← ask .aes E.aesOk) then return -1
    let out := aesCtr E c.outDir.aes packet
    update fun c => { c with outDir := { c.outDir with aes := out.2, seq := c.outDir.seq + 1 } }
    transmit (out.1 ++ macOf E c.outDir packet)
  else
    update fun c => { c with outDir := { c.outDir with seq := c.outDir.seq + 1 } }
    transmit packet
where
  /-- Hand the frame to the write callback. -/
  transmit (frame : Bytes) : LinkM Int := do
    if ← ask (.write frame) (E.wr · frame) then return 0
    update fun c => { c with state := .closed }
    return -1

def sendPacket (E : Env) (payload : Bytes) : LinkM Int := do
  let c ← conn
  let ret ← framePacket E payload
  record fun c' => if ret = 0 then .sent payload c else .sendFailed payload c'
  return ret

/-- The message number of a payload. -/
def msgOf (p : Bytes) : UInt8 := p.headD 0

theorem msgOf_data {b : WBuf} {v : UInt8} (h : b.first = some v) : msgOf b.data = v := by
  unfold WBuf.first at h
  rw [msgOf, List.headD_eq_head?_getD, h, Option.getD_some]

theorem first_message (v : UInt8) : ((wInit sshPlBuf).wByte v).first = some v :=
  WBuf.first_wByte_wInit (by decide) v

def disconnectPayload (reason : UInt32) (msg : String) : Bytes :=
  ((((wInit sshPlBuf).wByte msgDisconnect).wU32 reason).wCStr msg |>.wCStr "").data

@[simp] theorem msgOf_disconnectPayload (reason : UInt32) (msg : String) :
    msgOf (disconnectPayload reason msg) = msgDisconnect := by
  rw [disconnectPayload]
  exact msgOf_data (WBuf.first_wCStr (WBuf.first_wCStr (WBuf.first_wU32 (first_message _) _) _) _)

def disconnect (E : Env) (reason : UInt32) (msg : String) : LinkM Unit := do
  let c ← conn
  if c.state = .closed then return
  let _ ← sendPacket E (disconnectPayload reason msg)
  update fun c => { c with state := .closed }

def canSendNow (c : Conn) : Bool :=
  c.state = .conn && c.chan.chanOpen && !c.chan.closeSent && (c.kex = .idle || c.kex = .waitNewkeys)

/-- Disconnect and return -1, the way every handler reports a protocol error. -/
def fail (E : Env) (reason : UInt32) (msg : String) : LinkM Int := do
  disconnect E reason msg
  return -1

/-! ## What a send does -/

/-- The outcomes of a send of `payload`: on the wire, refused before anything
changed, or lost because the transport failed. -/
inductive Emits (payload : Bytes) (s : Session) : Int → Session → Prop
  | sent (pos : ℕ) (seq : UInt32) (hopen : s.conn.state ≠ .closed) : Emits payload s 0
      ⟨{ s.conn with outDir := s.conn.outDir.moved pos seq }, .sent payload s.conn :: s.log⟩
  | refused : Emits payload s (-1) ⟨s.conn, .sendFailed payload s.conn :: s.log⟩
  | lost (pos : ℕ) (seq : UInt32) (hopen : s.conn.state ≠ .closed) : Emits payload s (-1)
      ⟨{ s.conn with outDir := s.conn.outDir.moved pos seq, state := .closed },
        .sendFailed payload { s.conn with
          outDir := s.conn.outDir.moved pos seq, state := .closed } :: s.log⟩

private theorem transmit_emits (E : Env) (payload frame : Bytes) (s : Session)
    (hopen : s.conn.state ≠ .closed) (l : Link)
    (hconn : ∃ pos seq, l.conn = { s.conn with outDir := s.conn.outDir.moved pos seq })
    (hlog : l.log = s.log) (fault : Fault → Prop) :
    wp (framePacket.transmit E frame)
      (fun r l' => Emits payload s r
        ⟨l'.conn, (if r = 0 then .sent payload s.conn else .sendFailed payload l'.conn) :: l'.log⟩)
      fault l := by
  obtain ⟨pos, seq, hconn⟩ := hconn
  simp only [framePacket.transmit, wp_bind, wp_ask, wp_ite, wp_pure, wp_update, hconn, hlog]
  exact ⟨fun _ => .sent pos seq hopen, fun _ => .lost pos seq hopen⟩

theorem sendPacket_emits (E : Env) (payload : Bytes) (l : Link) (fault : Fault → Prop) :
    wp (sendPacket E payload) (fun r l' => Emits payload l.toSession r l'.toSession) fault l := by
  simp only [sendPacket, wp_bind, wp_conn, wp_record, wp_pure]
  simp only [framePacket, wp_bind, wp_conn, wp_ite, wp_ask, wp_pure]
  refine ⟨fun _ => .refused, fun hgo => ?_⟩
  have hopen : l.conn.state ≠ .closed := fun h => hgo (Or.inl h)
  split
  · simp only [wp_ite, wp_bind, wp_ask, wp_pure, wp_update]
    refine ⟨fun _ => ⟨fun _ => .refused, fun _ => ⟨fun _ => .refused, fun _ => ?_⟩⟩, fun _ => ?_⟩
    · refine transmit_emits E payload _ l.toSession hopen _ ?_ ?_ fault
      · exact ⟨_, _, rfl⟩
      · rfl
    · refine transmit_emits E payload _ l.toSession hopen _ ?_ ?_ fault
      · exact ⟨l.conn.outDir.aes.pos, _, rfl⟩
      · rfl
  · exact .refused

/-- On a platform where no call fails, only the transport refuses a packet, and that
closes the connection. -/
theorem sendPacket_emits_or_closes (E : Env) {payload : Bytes}
    (hlen : payload.length + 64 ≤ sshMaxPacket) (l : Link) (fault : Fault → Prop) :
    wp (sendPacket E payload) (fun r l' => Emits payload l.toSession r l'.toSession ∧
      (E.Reliable → r ≠ 0 → l'.conn.state = .closed)) fault l := by
  by_cases hE : E.Reliable
  swap
  · exact wp.imp (sendPacket_emits E payload l fault) fun _ _ h => ⟨h, fun h => absurd h hE⟩
  suffices hclose : wp (sendPacket E payload)
      (fun r l' => r ≠ 0 → l'.conn.state = .closed) fault l from
    wp.imp (wp.and (sendPacket_emits E payload l fault) hclose) fun _ _ h => ⟨h.1, fun _ => h.2⟩
  simp only [sendPacket, framePacket, framePacket.transmit, wp_bind, wp_conn, wp_record, wp_pure,
    wp_ite, wp_ask]
  refine ⟨fun hno _ => hno.resolve_right (Nat.not_lt.mpr hlen), fun _ => ?_⟩
  split
  · simp only [wp_ite, wp_bind, wp_ask, wp_pure, wp_update]
    simp [hE.hmac, hE.aes]
  · next hnone =>
      obtain ⟨pad, hpad⟩ := Option.ne_none_iff_exists'.mp (hE.random l.calls
        (padLenOf (blockOf l.conn.outDir) payload.length))
      exact absurd hpad (hnone pad)

end EfiSshServer
