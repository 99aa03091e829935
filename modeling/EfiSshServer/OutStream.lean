import EfiSshServer.KeySchedule
import EfiSshServer.Numbering

/-!
# The stream a client reads

Everything the server writes is one stream: the version line and behind it the packets of
all handlers and calls, through every change of keys.  A client that took part in the key
exchanges reads the payloads off that stream, in the order in which they were sent and
nothing else.

* `Peer` is such a client's end: it opens one packet at a time and takes new keys behind each
  `NEWKEYS`.  It is a definition of its own, not the server's receiver.
* `openPacket_seal`: what `SendPacket` seals under a direction, a peer opens whose direction
  is in the same place (`SamePlace`).
* `Streamed` is the invariant of the server: what it delivered are the frames of the payloads
  in the log, each behind the one before (`Follows`).
* With the key schedule the two stay in the same place, so that `stream_decodes` follows by
  induction on the log.
-/

namespace EfiSshServer

open StateProgram LinkM History

variable {E : Env} {p pad rest : Bytes} {c : Conn} {d d' : Dir} {l : Link} {log : List Event}
  {frames : List Bytes} {n : ℕ}

/-! ## A peer -/

/-- Open the packet at the front of the stream: its payload, the direction behind it and
what follows. -/
def openPacket (E : Env) (d : Dir) (stream : Bytes) : Option (Bytes × Dir × Bytes) :=
  let len := (getU32 (sealBytes E d (stream.take (firstLen d)))).toNat
  let packet := sealBytes E d (stream.take (4 + len))
  let behind := stream.drop (4 + len)
  if stream.length < 4 + len + trailerLen d then none
  else if d.active = true ∧ behind.take d.macLen ≠ macOf E d packet then none
  else
    some ((packet.drop 5).take (len - 1 - (packet.getD 4 0).toNat), d.advance (4 + len),
      behind.drop (trailerLen d))

/-- The direction under new keys. -/
def Dir.renew (d : Dir) : Option DirKeys → Dir
  | none => { d with active := false }
  | some k =>
      { d with
        aes := ⟨k.key, k.iv, 0⟩
        macKey := k.macKey
        macType := k.macType
        active := true }

/-- A client's end of the stream: the direction it reads with, and how many `NEWKEYS` it has
read. -/
structure Peer where
  dir : Dir
  renewals : ℕ

/-- No key exchange is through. -/
def Peer.fresh : Peer := ⟨(newConn [] []).outDir, 0⟩

/-- The peer behind the payload `p`. -/
def Peer.behind (keys : ℕ → Option DirKeys) (d : Dir) (renewals : ℕ) (p : Bytes) : Peer :=
  if msgOf p = msgNewkeys then ⟨d.renew (keys (renewals + 1)), renewals + 1⟩ else ⟨d, renewals⟩

def Peer.read (E : Env) (keys : ℕ → Option DirKeys) (peer : Peer) (stream : Bytes) :
    Option (Bytes × Peer × Bytes) := do
  let (p, d, rest) ← openPacket E peer.dir stream
  return (p, Peer.behind keys d peer.renewals p, rest)

/-- The first `n` payloads, the peer behind them and the rest of the stream. -/
def Peer.reads (E : Env) (keys : ℕ → Option DirKeys) (peer : Peer) :
    ℕ → Bytes → Option (List Bytes × Peer × Bytes)
  | 0, stream => some ([], peer, stream)
  | n + 1, stream => do
      let (ps, peer, stream) ← peer.reads E keys n stream
      let (p, peer, stream) ← peer.read E keys stream
      return (ps ++ [p], peer, stream)

/-- The stream behind the version line. -/
def behindLine (stream : Bytes) : Bytes := stream.drop (lineEnd stream + 1)

/-! ## Opening what is sealed -/

/-- Two directions give the same bytes for a packet. -/
structure SamePlace (d d' : Dir) : Prop where
  keys : d'.keys = d.keys
  seq : d'.seq = d.seq
  pos : d.active = true → d'.aes.pos = d.aes.pos

theorem active_of_keys (h : d'.keys = d.keys) : d'.active = d.active := by
  unfold Dir.keys at h
  cases hd : d.active <;> cases hd' : d'.active <;> simp_all

namespace SamePlace

variable (h : SamePlace d d')

include h

theorem active : d'.active = d.active := active_of_keys h.keys

theorem fields (hactive : d.active = true) : d'.aes = d.aes ∧ d'.macType = d.macType ∧
    d'.macKey.take d'.macLen = d.macKey.take d.macLen := by
  have hkeys := h.keys
  have hpos := h.pos hactive
  rw [Dir.keys, if_pos (h.active.trans hactive), Dir.keys, if_pos hactive, Option.some.injEq,
    DirKeys.mk.injEq] at hkeys
  obtain ⟨hkey, hiv, hmac, htype⟩ := hkeys
  refine ⟨?_, htype, hmac⟩
  cases haes : d.aes
  cases haes' : d'.aes
  simp_all

theorem sealBytes_eq (x : Bytes) : sealBytes E d' x = sealBytes E d x := by
  unfold sealBytes
  rw [h.active]
  split
  · next hactive => rw [(h.fields hactive).1]
  · rfl

theorem trailerLen_eq : trailerLen d' = trailerLen d := by
  unfold trailerLen Dir.macLen
  rw [h.active]
  split
  · next hactive => rw [(h.fields hactive).2.1]
  · rfl

theorem blockOf_eq : blockOf d' = blockOf d := by rw [blockOf, blockOf, h.active]

theorem macOf_eq (hactive : d.active = true) (packet : Bytes) :
    macOf E d' packet = macOf E d packet :=
  macOf_congr (h.fields hactive).2.1 (h.fields hactive).2.2 h.seq

end SamePlace

theorem sealBytes_sealBytes (d : Dir) (x : Bytes) : sealBytes E d (sealBytes E d x) = x := by
  unfold sealBytes
  split
  · exact aesCtr_aesCtr d.aes x
  · rfl

theorem take_sealBytes (d : Dir) (x : Bytes) {k : ℕ} (hk : k ≤ x.length) :
    (sealBytes E d x).take k = sealBytes E d (x.take k) := by
  conv_lhs => rw [← List.take_append_drop k x, sealBytes_append]
  exact List.take_left' (by rw [length_sealBytes, List.length_take_of_le hk])

/-- The length field of a packet, in the clear. -/
theorem getU32_take {k : ℕ} (hk : 4 ≤ k) (hlen : k ≤ (plainPacket p pad).length)
    (hmax : (plainPacket p pad).length < 2 ^ 32) :
    4 + (getU32 ((plainPacket p pad).take k)).toNat = (plainPacket p pad).length := by
  rw [length_plainPacket] at hmax
  rw [getU32_head (List.take_append_drop k _).symm (by rwa [List.length_take_of_le hlen])
    (by omega), length_plainPacket]
  omega

theorem openPacket_seal (h : SamePlace d d') (hfits : p.length + 64 ≤ sshMaxPacket)
    (hpad : pad.length = padLenOf (blockOf d) p.length) (rest : Bytes) :
    openPacket E d' (sealPacket E d (plainPacket p pad) ++ rest) =
      some (p, d'.advance (plainPacket p pad).length, rest) := by
  obtain ⟨hfour, hnineteen, hblock⟩ := padLenOf_spec (blockOf_eq d) p.length
  rw [← hpad] at hfour hnineteen hblock
  have hlength := length_plainPacket p pad
  simp only [sshMaxPacket] at hfits
  have hfirst : 4 ≤ firstLen d' := by
    unfold firstLen
    split <;> decide
  have hfirst' : firstLen d' ≤ (plainPacket p pad).length := by
    unfold firstLen
    split
    · next hactive =>
        rw [blockOf, if_pos (h.active ▸ hactive)] at hblock
        omega
    · omega
  have hmac : (if d.active then macOf E d (plainPacket p pad) else []).length = trailerLen d' := by
    rw [length_mac, h.trailerLen_eq]
  generalize hm : (if d.active then macOf E d (plainPacket p pad) else []) = mac at hmac
  have hstream : sealPacket E d (plainPacket p pad) ++ rest =
      sealBytes E d' (plainPacket p pad) ++ (mac ++ rest) := by
    rw [sealPacket, hm, h.sealBytes_eq, List.append_assoc]
  -- deciphering a front of the stream gives the front of the packet
  have htake : ∀ {k : ℕ}, k ≤ (plainPacket p pad).length →
      sealBytes E d' ((sealBytes E d' (plainPacket p pad) ++ (mac ++ rest)).take k) =
        (plainPacket p pad).take k := fun hk => by
    rw [List.take_append_of_le_length (by rwa [length_sealBytes]), take_sealBytes d' _ hk,
      sealBytes_sealBytes]
  have htotal := getU32_take hfirst hfirst' (by omega)
  have hbody := htake (Nat.le_refl _)
  rw [List.take_length] at hbody
  have hdrop : (sealBytes E d' (plainPacket p pad) ++ (mac ++ rest)).drop
      (plainPacket p pad).length = mac ++ rest := List.drop_left' (length_sealBytes _ _ _)
  rw [hstream]
  simp only [openPacket, htake hfirst', htotal, hbody, hdrop]
  -- neither test of the receiver fires: the MAC is right, and the packet is complete
  rw [if_neg, if_neg]
  · have hpadding : ((plainPacket p pad).getD 4 0).toNat = pad.length := by
      rw [plainPacket]
      exact UInt8.toNat_ofNat_of_lt (by omega : pad.length < 256)
    have hpayload : ((plainPacket p pad).drop 5).take p.length = p := List.take_left
    have hlen : (getU32 ((plainPacket p pad).take (firstLen d'))).toNat - 1 - pad.length =
        p.length := by omega
    rw [hpadding, List.drop_left' hmac, hlen, hpayload]
  · rintro ⟨hactive, hne⟩
    refine hne ?_
    rw [← hm, if_pos (h.active ▸ hactive), h.macOf_eq (h.active ▸ hactive)]
    refine List.take_left' ?_
    rw [length_macOf, Dir.macLen, Dir.macLen, (h.fields (h.active ▸ hactive)).2.1]
  · rw [List.length_append, List.length_append, length_sealBytes, hmac]
    omega

/-! ## What the server delivers -/

/-- The length of the packet of a payload. -/
def packetLen (d : Dir) (p : Bytes) : ℕ := 5 + p.length + padLenOf (blockOf d) p.length

/-- A direction is in its place behind the packets of the history: numbered on, and in the key
stream behind the last packet or, behind a `NEWKEYS`, at its start. -/
def Follows (d : Dir) : List Event → Prop
  | [] => d.seq = 0
  | .sent p c :: _ =>
      d.seq = c.outDir.seq + 1 ∧
        d.aes.pos = if msgOf p = msgNewkeys then 0
          else (c.outDir.advance (packetLen c.outDir p)).aes.pos
  | _ :: log => Follows d log

/-- Each packet was sent from its place. -/
def SentInPlace : Event → List Event → Prop
  | .sent p c, older => Follows c.outDir older ∧ p.length + 64 ≤ sshMaxPacket
  | _, _ => True

/-- The frames of the packets in a history, oldest first. -/
inductive Frames (E : Env) : List Event → List Bytes → Prop
  | nil : Frames E [] []
  | sent {log : List Event} {frames : List Bytes} {p pad : Bytes} {c : Conn}
      (h : Frames E log frames) (hpad : pad.length = padLenOf (blockOf c.outDir) p.length) :
      Frames E (.sent p c :: log) (frames ++ [sealPacket E c.outDir (plainPacket p pad)])
  | other {log : List Event} {frames : List Bytes} {e : Event} (h : Frames E log frames)
      (he : e.isSending = false) : Frames E (e :: log) frames

/-- The version line, once it is sent. -/
def lineSent (c : Conn) : List Bytes :=
  if c.versionSent then [ascii sshServerVersion ++ [cr, lf]] else []

/-- The stream since `before` was delivered: the version line, then the packets.  As long as the
line has not gone out, the connection is closed. -/
structure Delivers (E : Env) (before : List Bytes) (l : Link) : Prop where
  stream : ∃ frames, Frames E l.log frames ∧
    delivered E l.calls = before ++ lineSent l.conn ++ frames ∧
    (l.conn.versionSent = false → l.conn.state = .closed ∧ frames = [])
  past : Along SentInPlace l.log

/-- The same, with the outgoing direction in its place. -/
structure Streamed (E : Env) (before : List Bytes) (l : Link) : Prop
    extends Delivers E before l where
  next : l.conn.state ≠ .closed → Follows l.conn.outDir l.log

variable {before : List Bytes} {l' : Link}

/-- Events that are no packets. -/
theorem Follows.append {es : List Event} (h : Follows d log)
    (hes : ∀ e ∈ es, e.isSending = false) : Follows d (es ++ log) := by
  induction es with
  | nil => exact h
  | cons e es ih =>
      have htail := ih fun e he => hes e (List.mem_cons_of_mem _ he)
      have he := hes e List.mem_cons_self
      cases e with
      | sent => cases he
      | _ => exact htail

/-- Nothing is delivered, and what is recorded is no packet. -/
theorem Delivers.congr (h : Delivers E before l) (es : List Event)
    (hdelivered : delivered E l'.calls = delivered E l.calls)
    (hversion : l'.conn.versionSent = l.conn.versionSent)
    (hopen : l'.conn.state ≠ .closed → l.conn.state ≠ .closed) (hlog : l'.log = es ++ l.log)
    (hes : ∀ e ∈ es, e.isSending = false) : Delivers E before l' := by
  obtain ⟨frames, hframes, hstream, hearly⟩ := h.stream
  refine ⟨⟨frames, ?_, ?_, fun hno => ?_⟩, ?_⟩
  · rw [hlog]
    clear hlog
    induction es with
    | nil => exact hframes
    | cons e es ih =>
        exact .other (ih fun e he => hes e (List.mem_cons_of_mem _ he)) (hes e List.mem_cons_self)
  · rw [hdelivered, hstream, lineSent, lineSent, hversion]
  · obtain ⟨hclosed, hnil⟩ := hearly (hversion ▸ hno)
    exact ⟨by_contra fun h => hopen h hclosed, hnil⟩
  · rw [hlog]
    refine h.past.append fun e newer older heq => ?_
    have he := hes e (by simp [heq])
    cases e with
    | sent => cases he
    | _ => trivial

theorem Streamed.congr (h : Streamed E before l) (es : List Event)
    (hdelivered : delivered E l'.calls = delivered E l.calls)
    (hversion : l'.conn.versionSent = l.conn.versionSent)
    (hopen : l'.conn.state ≠ .closed → l.conn.state ≠ .closed ∧
      l'.conn.outDir = l.conn.outDir) (hlog : l'.log = es ++ l.log)
    (hes : ∀ e ∈ es, e.isSending = false) : Streamed E before l' where
  toDelivers := h.toDelivers.congr es hdelivered hversion (fun h => (hopen h).1) hlog hes
  next hl := by
    rw [(hopen hl).2, hlog]
    exact (h.next (hopen hl).1).append hes

/-- A packet on the wire. -/
theorem Streamed.sent {calls : List Call} (h : Streamed E before l) (hopen : l.conn.state ≠ .closed)
    (hfits : p.length + 64 ≤ sshMaxPacket)
    (hpad : pad.length = padLenOf (blockOf l.conn.outDir) p.length)
    (hdelivered : delivered E calls =
      delivered E l.calls ++ [sealPacket E l.conn.outDir (plainPacket p pad)]) (c : Conn)
    (hversion : c.versionSent = l.conn.versionSent) :
    Delivers E before ⟨⟨c, .sent p l.conn :: l.log⟩, calls⟩ := by
  obtain ⟨frames, hframes, hstream, hearly⟩ := h.stream
  refine ⟨⟨_, .sent hframes hpad, ?_, fun hno => ?_⟩, ⟨h.next hopen, hfits⟩, h.past⟩
  · rw [hdelivered, hstream, lineSent, lineSent, hversion, List.append_assoc]
  · exact absurd (hearly (hversion ▸ hno)).1 hopen

/-- A packet that did not go out leaves no trace in the stream. -/
theorem Posts.streamed_of_lost {ret : Int} (h : Posts E p l ret l') (hret : ret ≠ 0)
    (hl : Streamed E before l) : Streamed E before l' := by
  cases h with
  | sent => exact absurd rfl hret
  | refused hdelivered =>
      exact hl.congr [_] hdelivered rfl (fun hopen => ⟨hopen, rfl⟩) rfl (by simp [Event.isSending])
  | lost hclosed _ hversion hdelivered =>
      exact hl.congr [_] hdelivered hversion (fun hopen => absurd hclosed hopen) rfl
        (by simp [Event.isSending])

theorem Posts.streamed {ret : Int} (h : Posts E p l ret l') (hmsg : msgOf p ≠ msgNewkeys)
    (hl : Streamed E before l) : Streamed E before l' := by
  have hlost := fun hret => h.streamed_of_lost hret hl
  cases h with
  | @sent _ pad hopen hfits hpad hdelivered =>
      refine ⟨hl.sent hopen hfits hpad hdelivered _ rfl, fun _ => ⟨rfl, ?_⟩⟩
      rw [if_neg hmsg, packetLen, ← hpad, ← length_plainPacket]
  | refused | lost => exact hlost (by decide)

theorem streamed_sendInvariant :
    SendInvariant E (· ≠ msgNewkeys) (fun e => e.isPacket = false) (Streamed E before) where
  update hl hsame := hl.congr [] rfl hsame.versionSent
    (fun hopen => ⟨hsame.isOpen hopen, hsame.outDir⟩) rfl (by simp)
  ask hl hcall := hl.congr [] (delivered_cons hcall _) rfl (fun hopen => ⟨hopen, rfl⟩) rfl
    (by simp)
  record {l e} hl he := by
    refine hl.congr [e] rfl rfl (fun hopen => ⟨hopen, rfl⟩) rfl ?_
    cases e with
    | sent => cases he
    | _ => simp [Event.isSending]
  send hmsg _ hl := wp.imp sendPacket_posts fun _ _ h => h.streamed hmsg hl

/-- Between a `NEWKEYS` and the new keys. -/
structure Renewing (E : Env) (before : List Bytes) (l : Link) : Prop
    extends Delivers E before l where
  opened : l.conn.state ≠ .closed
  newest : ∃ c older, l.log = .sent newkeysPayload c :: older ∧
    l.conn.outDir.seq = c.outDir.seq + 1

theorem Posts.renewing {ret : Int} (h : Posts E newkeysPayload l ret l')
    (hl : Streamed E before l) :
    (ret ≠ 0 → Streamed E before l') ∧ (ret = 0 → Renewing E before l') := by
  refine ⟨fun hret => h.streamed_of_lost hret hl, fun hret => ?_⟩
  cases h with
  | sent hopen hfits hpad hdelivered =>
      exact ⟨hl.sent hopen hfits hpad hdelivered _ rfl, hopen, _, _, rfl, rfl⟩
  | refused | lost => cases hret

theorem streamed_linkInvariant (hset : ∀ calls, E.aesSetKeyOk calls = true) :
    LinkInvariant E (Streamed E before) where
  toSendInvariant := streamed_sendInvariant
  switch := by
    refine streamed_sendInvariant.switchKeys (J := Renewing E before) (by decide) ?_ ?_ ?_
    · exact fun hl => wp.imp sendPacket_posts fun _ _ h => h.renewing hl
    · intro l _ hunset
      rw [hset] at hunset
      cases hunset
    · intro l derive hl
      obtain ⟨c, older, hlog, hseq⟩ := hl.newest
      refine ⟨hl.toDelivers.congr [] (delivered_cons rfl _) rfl id rfl (by simp),
        fun _ => ?_⟩
      show Follows (l.conn.switched derive).outDir l.log
      rw [hlog]
      refine ⟨hseq, ?_⟩
      rw [if_pos msgOf_newkeysPayload]
      rfl
  arrive payload packet mac hl := by
    refine hl.congr [_] rfl rfl (fun hopen => ⟨hopen, rfl⟩) rfl ?_
    simp [Event.isSending]
  version l hl := wp.imp sendVersion_posts fun _ _ h => by
    cases h with
    | earlier => exact hl
    | sent hno hdelivered =>
        obtain ⟨frames, hframes, hstream, hearly⟩ := hl.stream
        obtain ⟨hclosed, rfl⟩ := hearly hno
        refine ⟨⟨⟨[], .other hframes rfl, ?_, by simp⟩, trivial, hl.past⟩,
          fun hopen => absurd hclosed hopen⟩
        rw [hdelivered, hstream, lineSent, hno]
        simp [lineSent]
    | lost hno hdelivered =>
        exact hl.congr [] hdelivered rfl (fun hopen => absurd rfl hopen) rfl (by simp)

/-! ## The keys of the peer -/

/-- The keys that a client derives behind the `n`-th `NEWKEYS` of the server, out of the
exchange it belongs to and its own `KEXINIT` in it. -/
def peerKeys (E : Env) (l : Ledger) : ℕ → Option DirKeys
  | 0 => none
  | n + 1 => do
      let x ← (l.renewals[n]?).join
      let first ← l.exchanges.head?
      let f := readKexInit (x.clientKexInit.drop 17)
      let cipher ← firstCommon f.encSc encAlgs
      let mac ← firstCommon f.macSc macAlgs
      return {
        key := x.key E (first.hash E) 'D' (encKeyLen cipher)
        iv := x.key E (first.hash E) 'B' 16
        macKey := x.key E (first.hash E) 'F' (macLenOf (macTypeOf mac))
        macType := macTypeOf mac }

theorem CipherKeyLen.eq {name : Bytes} (h : CipherKeyLen name n) : encKeyLen name = n := by
  cases h <;> decide

theorem MacNamed.eq {name : Bytes} {type : MacType} (h : MacNamed name type) :
    macTypeOf name = type := by
  cases h <;> decide

/-- The keys that belong to a number are the ones a client derives. -/
theorem Keyed.eq_peerKeys {ledger : Ledger} {held : Option DirKeys}
    (h : Keyed (outKeys E) E ledger n held) : peerKeys E ledger n = held := by
  cases h with
  | clear => rfl
  | renewed hx hfirst hform hchosen =>
      obtain ⟨cipher, hcipher, hlen⟩ := hchosen.cipherOut
      obtain ⟨mac, hmac, htype⟩ := hchosen.macOut
      have hread := (ClientKexInit.readKexInit_of_encodes hform).2
      simp only [peerKeys, hx, hfirst, hread, ClientKexInit.fields, hcipher, hmac, hlen.eq,
        htype.eq, outKeys, Option.join_some, Option.bind_eq_bind, Option.bind_some]
      rfl

/-- What a MAC uses of its key is all of it. -/
theorem peerKeys_macKey {ledger : Ledger} {k : DirKeys} (h : peerKeys E ledger n = some k) :
    k.macKey.take (macLenOf k.macType) = k.macKey := by
  cases n with
  | zero => cases h
  | succ n =>
      simp only [peerKeys, Option.bind_eq_bind, Option.bind_eq_some_iff] at h
      obtain ⟨x, -, first, -, cipher, -, mac, -, h⟩ := h
      cases h
      exact x.take_key _ 'F' (Nat.le_refl _)

theorem Dir.keys_renew {ledger : Ledger} (d : Dir) :
    (d.renew (peerKeys E ledger n)).keys = peerKeys E ledger n := by
  cases hkeys : peerKeys E ledger n with
  | none => rfl
  | some k =>
      simp only [Dir.renew, Dir.keys, Dir.macLen, if_true, peerKeys_macKey hkeys]

theorem Dir.keys_advance (d : Dir) (n : ℕ) : (d.advance n).keys = d.keys := by
  unfold Dir.keys Dir.advance Dir.skip Dir.macLen
  split
  · simp
  · rfl

/-! ## The peer follows the server -/

/-- The peer that has read the packets of a history. -/
def peerAt (keys : ℕ → Option DirKeys) : List Event → Peer
  | [] => .fresh
  | .sent p _ :: log =>
      .behind keys ((peerAt keys log).dir.advance (packetLen (peerAt keys log).dir p))
        (peerAt keys log).renewals p
  | _ :: log => peerAt keys log

/-- Each packet was sent under the keys that the peer has then. -/
def SentUnderKeys (keys : ℕ → Option DirKeys) : Event → List Event → Prop
  | .sent _ c, older => keys (peerAt keys older).renewals = c.outDir.keys
  | _, _ => True

theorem renewals_peerAt (keys : ℕ → Option DirKeys) (log : List Event) :
    (peerAt keys log).renewals = (ledger log).renewals.length := by
  induction log with
  | nil => rfl
  | cons e log ih =>
      cases e with
      | sent p c =>
          simp only [peerAt, Peer.behind, ledger, Ledger.record]
          split
          · rw [List.length_append, ← ih]
            rfl
          · exact ih
      | dispatch p =>
          simp only [peerAt, ledger, Ledger.record]
          split <;> exact ih
      | _ => exact ih

theorem Dir.pos_renew (d : Dir) {keys : Option DirKeys} (h : keys ≠ none) :
    (d.renew keys).aes.pos = 0 := by
  cases keys with
  | none => exact absurd rfl h
  | some k => rfl

theorem Dir.seq_renew (d : Dir) (keys : Option DirKeys) : (d.renew keys).seq = d.seq := by
  cases keys <;> rfl

theorem Dir.pos_advance {d : Dir} (h : d.active = true) (n : ℕ) :
    (d.advance n).aes.pos = d.aes.pos + n := by
  rw [Dir.advance, Dir.skip_of_active h]

theorem Dir.keys_ne_none_iff : d.keys ≠ none ↔ d.active = true := by
  unfold Dir.keys
  cases d.active <;> simp

/-- A direction in its place and under the right keys is the peer's. -/
theorem samePlace_peerAt {full : Ledger} (hplace : Along SentInPlace log)
    (hkeys : Along (SentUnderKeys (peerKeys E full)) log) (hfollows : Follows d log)
    (hd : peerKeys E full (peerAt (peerKeys E full) log).renewals = d.keys) :
    SamePlace d (peerAt (peerKeys E full) log).dir := by
  induction log generalizing d with
  | nil =>
      refine ⟨hd, hfollows.symm, fun hactive => absurd hd.symm ?_⟩
      exact Dir.keys_ne_none_iff.mpr hactive
  | cons e log ih =>
      cases e with
      | sent p c =>
          have hsame := ih hplace.2 hkeys.2 hplace.1.1 hkeys.1
          obtain ⟨hseq, hpos⟩ := hfollows
          have hlen : packetLen (peerAt (peerKeys E full) log).dir p = packetLen c.outDir p := by
            rw [packetLen, packetLen, hsame.blockOf_eq]
          have hnumber : ∀ n, ((peerAt (peerKeys E full) log).dir.advance n).seq = d.seq :=
            fun n => (congrArg (· + 1) hsame.seq).trans hseq.symm
          by_cases hmsg : msgOf p = msgNewkeys
          · rw [if_pos hmsg] at hpos
            simp only [peerAt, Peer.behind, if_pos hmsg] at hd ⊢
            refine ⟨(Dir.keys_renew _).trans hd, (Dir.seq_renew _ _).trans (hnumber _),
              fun hactive => ?_⟩
            rw [hpos, Dir.pos_renew _ (hd ▸ Dir.keys_ne_none_iff.mpr hactive)]
          · rw [if_neg hmsg] at hpos
            simp only [peerAt, Peer.behind, if_neg hmsg] at hd ⊢
            have heq : c.outDir.keys = d.keys := hkeys.1.symm.trans hd
            refine ⟨(Dir.keys_advance _ _).trans (hsame.keys.trans heq), hnumber _,
              fun hactive => ?_⟩
            have hactive' : c.outDir.active = true := (active_of_keys heq).trans hactive
            rw [hpos, Dir.pos_advance hactive', Dir.pos_advance (hsame.active.trans hactive'),
              hsame.pos hactive', hlen]
      | _ => exact ih hplace.2 hkeys.2 hfollows hd

/-- The payloads sent, oldest first. -/
def sentPayloads (log : List Event) : List Bytes :=
  chronicle (fun | .sent p _ => some p | _ => none) log

theorem sentPayloads_sent (p : Bytes) (c : Conn) (log : List Event) :
    sentPayloads (.sent p c :: log) = sentPayloads log ++ [p] :=
  chronicle_cons_of_some rfl

theorem sentPayloads_cons {e : Event} (he : e.isSending = false) (log : List Event) :
    sentPayloads (e :: log) = sentPayloads log := by
  refine chronicle_cons_of_none ?_
  cases e with
  | sent => cases he
  | _ => rfl

theorem peerAt_cons {keys : ℕ → Option DirKeys} {e : Event} (he : e.isSending = false) :
    peerAt keys (e :: log) = peerAt keys log := by
  cases e with
  | sent => cases he
  | _ => rfl

/-- A peer reads the frames of a history. -/
theorem reads_frames {full : Ledger} (hframes : Frames E log frames)
    (hplace : Along SentInPlace log) (hkeys : Along (SentUnderKeys (peerKeys E full)) log)
    (rest : Bytes) :
    Peer.fresh.reads E (peerKeys E full) (sentCount log) (frames.flatten ++ rest) =
      some (sentPayloads log, peerAt (peerKeys E full) log, rest) := by
  induction hframes generalizing rest with
  | nil => rfl
  | @sent log frames p pad c hframes hpad ih =>
      have hsame := samePlace_peerAt hplace.2 hkeys.2 hplace.1.1 hkeys.1
      have hlen : packetLen (peerAt (peerKeys E full) log).dir p = (plainPacket p pad).length := by
        rw [packetLen, hsame.blockOf_eq, ← hpad, length_plainPacket]
      rw [sentCount, List.countP_cons_of_pos rfl, Peer.reads, List.flatten_append,
        List.append_assoc]
      rw [show log.countP Event.isSending = sentCount log from rfl, ih hplace.2 hkeys.2]
      simp only [Option.bind_eq_bind, Option.bind_some, Peer.read, List.flatten_cons,
        List.flatten_nil, List.append_nil, openPacket_seal hsame hplace.1.2 hpad, sentPayloads_sent,
        peerAt, hlen]
      rfl
  | @other log frames e hframes he ih =>
      rw [sentPayloads_cons he, peerAt_cons he, sentCount, List.countP_cons_of_neg (by simp [he])]
      exact ih hplace.2 hkeys.2 rest

theorem behindLine_append {line : Bytes} (hline : lf ∉ line) (rest : Bytes) :
    behindLine (line ++ lf :: rest) = rest := by
  have hend : lineEnd (line ++ lf :: rest) = line.length := by
    rw [lineEnd, List.takeWhile_append_of_pos fun b hb => by
      simpa using fun heq : b = lf => hline (heq ▸ hb)]
    simp
  rw [behindLine, hend, ← List.drop_drop, List.drop_left]
  rfl

/-! ## The result -/

/-- A ledger only grows. -/
theorem ledger_prefix (newer older : List Event) :
    (ledger older).exchanges <+: (ledger (newer ++ older)).exchanges ∧
      (ledger older).renewals <+: (ledger (newer ++ older)).renewals := by
  induction newer with
  | nil => exact ⟨List.prefix_rfl, List.prefix_rfl⟩
  | cons e newer ih =>
      obtain ⟨hexchanges, hrenewals⟩ := ih
      simp only [List.cons_append, ledger]
      generalize ledger (newer ++ older) = l at hexchanges hrenewals
      cases e with
      | exchange x => exact ⟨hexchanges.trans (List.prefix_append _ _), hrenewals⟩
      | sent p =>
          simp only [Ledger.record]
          split
          · exact ⟨hexchanges, hrenewals.trans (List.prefix_append _ _)⟩
          · exact ⟨hexchanges, hrenewals⟩
      | dispatch p =>
          simp only [Ledger.record]
          split <;> exact ⟨hexchanges, hrenewals⟩
      | _ => exact ⟨hexchanges, hrenewals⟩

/-- By the key schedule, every packet went under the keys of the peer. -/
theorem Reachable.sentUnderKeys {s : Server} (h : Reachable E s)
    (hset : ∀ calls, E.aesSetKeyOk calls = true) :
    Along (SentUnderKeys (peerKeys E (ledger s.link.log))) s.link.log := by
  obtain ⟨-, hsent, -⟩ := key_schedule h
  refine along_iff.mpr fun newer e older hlog => ?_
  cases e with
  | sent p c =>
      cases hsent newer older p c hlog with
      | current hkeyed =>
          obtain ⟨hexchanges, hrenewals⟩ := ledger_prefix (newer ++ [.sent p c]) older
          rw [List.append_assoc, List.singleton_append, ← hlog] at hexchanges hrenewals
          show peerKeys E (ledger s.link.log) _ = _
          rw [renewals_peerAt]
          exact (hkeyed.mono hexchanges hrenewals).eq_peerKeys
      | unset _ _ hfail =>
          obtain ⟨calls, hfail⟩ := hfail
          rw [hset] at hfail
          cases hfail
  | _ => trivial

theorem Runs.trans {s₀ s₁ s : Server} (h : Runs E s₀ s₁) (h' : Runs E s₁ s) : Runs E s₀ s := by
  induction h' with
  | none => exact h
  | call _ call hrun ih => exact .call ih call hrun

/-- What `SshAccept` leaves behind as the first call. -/
theorem sshAccept_streamed (hset : ∀ calls, E.aesSetKeyOk calls = true) {s₀ : Server}
    (hlog : s₀.link.log = []) (hseq : s₀.link.conn.outDir.seq = 0)
    (hversion : s₀.link.conn.versionSent = false) (rounds : ℕ) :
    wp (sshAccept E rounds)
      (fun _ s => Streamed E (delivered E s₀.link.calls) s.link) anyFault s₀ := by
  simp only [sshAccept, wp_bind, ServerM.wp_onLink, rtNow, LinkM.wp_ask]
  refine wp.imp sendVersion_posts fun ret l hpost => ?_
  have hframes : Frames E s₀.link.log [] := hlog ▸ .nil
  have hpast : Along SentInPlace s₀.link.log := hlog ▸ trivial
  cases hpost with
  | earlier h => exact absurd (h.symm.trans hversion) (by decide)
  | sent _ hdelivered =>
      refine wp.ite (fun h => absurd rfl h) fun _ => ?_
      refine (streamed_linkInvariant hset).dispatchInvariant.partInvariant.acceptRounds _ _ _ ?_
      refine ⟨⟨⟨[], .other hframes rfl, ?_, by simp⟩, trivial, hpast⟩, fun _ => ?_⟩
      · rw [hdelivered, delivered_cons rfl]
        simp [lineSent]
      · show Follows s₀.link.conn.outDir s₀.link.log
        rw [hlog]
        exact hseq
  | lost _ hdelivered =>
      refine wp.ite (fun _ => ?_) fun h => absurd (by decide) h
      refine ⟨⟨⟨[], hframes, ?_, fun _ => ⟨rfl, rfl⟩⟩, hpast⟩, fun hopen => absurd rfl hopen⟩
      rw [hdelivered, delivered_cons rfl, lineSent, if_neg (by simp [hversion])]
      simp

/-- What holds in every run that begins with `SshAccept`. -/
theorem Runs.streamed (hset : ∀ calls, E.aesSetKeyOk calls = true) {connSize : ℕ}
    {hostSeed : Bytes} {calls : List Call} {input : List ReadResult} {s₀ s₁ s : Server}
    (hnew : sshNew E connSize hostSeed calls input = some s₀) {rounds : ℕ}
    (haccept : runCall E (.accept rounds) s₀ = .ok ((), s₁)) (hruns : Runs E s₁ s) :
    Streamed E (delivered E s₀.link.calls) s.link := by
  have hstart := (sshNew_eq hnew).1
  have hconn := congrArg Session.conn hstart
  have hfirst : wp (runCall E (.accept rounds))
      (fun _ s => Streamed E (delivered E s₀.link.calls) s.link) anyFault s₀ := by
    simp only [runCall, wp_bind]
    refine wp.imp (sshAccept_streamed hset (congrArg Session.log hstart) ?_ ?_ rounds)
      fun _ _ h => h
    · rw [hconn]
      rfl
    · rw [hconn]
      rfl
  exact (streamed_linkInvariant hset).dispatchInvariant.partInvariant.runs hruns
    (hfirst.ok haccept)

/-- Behind the version line, if it was sent, come the packets. -/
theorem behindLine_stream {frames : List Bytes} (h : c.versionSent = false → frames = []) :
    behindLine (lineSent c ++ frames).flatten = frames.flatten := by
  unfold lineSent
  split
  · rw [List.singleton_append, List.flatten_cons,
      show ascii sshServerVersion ++ [cr, lf] ++ frames.flatten =
        (ascii sshServerVersion ++ [cr]) ++ lf :: frames.flatten by simp]
    exact behindLine_append (by decide) _
  · next hno =>
      rw [h (by simpa using hno)]
      rfl

/-- **The stream a client reads.**  In every run that begins with `SshAccept`, on a platform
that sets every AES key, what the transport has accepted since `SshNew` is the version line
and behind it a stream that the client opens packet by packet, with the keys of the
exchanges it took part in: it reads exactly the payloads sent, in their order, and nothing is
left over. -/
theorem stream_decodes (hset : ∀ calls, E.aesSetKeyOk calls = true) {connSize : ℕ}
    {hostSeed : Bytes} {calls : List Call} {input : List ReadResult} {s₀ s₁ s : Server}
    (hnew : sshNew E connSize hostSeed calls input = some s₀) {rounds : ℕ}
    (haccept : runCall E (.accept rounds) s₀ = .ok ((), s₁)) (hruns : Runs E s₁ s) :
    ∃ stream peer, delivered E s.link.calls = delivered E s₀.link.calls ++ stream ∧
      Peer.fresh.reads E (peerKeys E (ledger s.link.log)) (sentCount s.link.log)
        (behindLine stream.flatten) = some (sentPayloads s.link.log, peer, []) := by
  have hreach : Reachable E s := ⟨_, _, _, _, s₀, hnew, (Runs.none.call _ haccept).trans hruns⟩
  have hstreamed := hruns.streamed hset hnew haccept
  obtain ⟨frames, hframes, hdelivered, hearly⟩ := hstreamed.stream
  have hreads := reads_frames hframes hstreamed.past (hreach.sentUnderKeys hset) []
  rw [List.append_nil] at hreads
  refine ⟨lineSent s.link.conn ++ frames, peerAt (peerKeys E (ledger s.link.log)) s.link.log,
    ?_, ?_⟩
  · rw [hdelivered, List.append_assoc]
  · rw [behindLine_stream fun hno => (hearly hno).2, hreads]

/-- A client that logs in reads `KEXINIT`, the reply with `NEWKEYS` behind it, and what it is
answered under the new keys. -/
theorem stream_decodes_login : ∃ s stream peer, Reachable (plainEnv fun _ _ => true) s ∧
    Peer.fresh.reads (plainEnv fun _ _ => true)
        (peerKeys (plainEnv fun _ _ => true) (ledger s.link.log)) (sentCount s.link.log)
        (behindLine stream) = some (sentPayloads s.link.log, peer, []) ∧
      (sentPayloads s.link.log).map msgOf = [msgKexinit, msgKexdhReply, msgNewkeys,
        msgServiceAccept, msgUserauthSuccess, msgChannelOpenConfirm] := by
  have htest : (scenario (plainEnv fun _ _ => true) [.accept 1]
      [.data (clientLogin "root" "secret")]).any (fun s => decide
        ((sentPayloads s.link.log).map msgOf = [msgKexinit, msgKexdhReply, msgNewkeys,
          msgServiceAccept, msgUserauthSuccess, msgChannelOpenConfirm])) = true := by decide +kernel
  obtain ⟨s, hend, hsent⟩ := (Option.any_eq_true _ _).mp htest
  obtain ⟨s₀, s₁, hnew, haccept, hruns⟩ := scenario_first hend
  obtain ⟨stream, peer, -, hreads⟩ := stream_decodes (fun _ => rfl) hnew haccept hruns
  exact ⟨s, stream.flatten, peer, scenario_reachable hend, hreads, of_decide_eq_true hsent⟩

end EfiSshServer
