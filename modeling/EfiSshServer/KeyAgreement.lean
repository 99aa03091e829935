import EfiSshServer.OutStream

/-!
# A client that keeps up

The keys of `OutStream.lean` are the server's own record of its exchanges.  Here the other
end computes them: `Client` has a version line, a `KEXINIT` and a private key for each
exchange and reads the stream from its first byte.  It takes the exchange hash over what it
sent and what it has read, checks the signature, and derives its keys from that.

`client_agrees` says that both ends then have the same transcripts, and with them the same
secrets, session id and keys, after any number of exchanges.

## Strategy

* `InStep` is the invariant of the server: a reply goes out behind each exchange, and
  `NEWKEYS` right behind the reply, or the connection ends.
* `View` relates what the client has read to the log; it holds along the log
  (`Client.reads_view`), because a reply carries what was hashed.
* Two conditions are about the client's side of the line: the messages that arrive are those
  it has sent (`Client.Speaks`), and the curve is commutative.
-/

namespace EfiSshServer

open StateProgram History LinkM

variable {E : Env} {seed pub q p : Bytes} {s t u : Session} {c : Conn} {x : Transcript}
  {log es : List Event}

/-! ## The client -/

/-- What a client has ready for an exchange. -/
structure Offer where
  kexInit : Bytes
  /-- Its private key on the curve. -/
  secret : Bytes

structure Client where
  version : Bytes
  offers : List Offer
  /-- Whether a signature is right, for a host key and the hash it is over. -/
  verify : (ks hash sig : Bytes) → Bool

/-- What a client has read: the server's version and `KEXINIT` messages, the exchanges it has a
reply of, and how many `NEWKEYS`. -/
structure ClientView where
  serverVersion : Bytes
  serverInits : List Bytes
  transcripts : List Transcript
  renewals : ℕ

/-- What goes into the keys of a direction: the lists of a `KEXINIT` they are chosen from, and
the letters they are derived with. -/
structure KeyUse where
  ciphers : KexInitFields → Bytes
  macs : KexInitFields → Bytes
  iv : Char
  key : Char
  macKey : Char

def toClient : KeyUse := ⟨(·.encSc), (·.macSc), 'B', 'D', 'F'⟩

def toServer : KeyUse := ⟨(·.encCs), (·.macCs), 'A', 'C', 'E'⟩

/-- `HASH(K || H || letter || session_id)`, as long as it has to be. -/
def Transcript.derived (x : Transcript) (E : Env) (sessionId : Bytes) (letter : Char) (need : ℕ) :
    Bytes :=
  KeyStream.key E.digest 32 (hashStr (mpintBody x.k) ++ E.digest x.preimage)
    ([UInt8.ofNat letter.toNat] ++ sessionId) need

def Transcript.dirKeys (x : Transcript) (E : Env) (use : KeyUse) (sessionId cipher mac : Bytes) :
    DirKeys where
  key := x.derived E sessionId use.key (encKeyLen cipher)
  iv := x.derived E sessionId use.iv 16
  macKey := x.derived E sessionId use.macKey (macLenOf (macTypeOf mac))
  macType := macTypeOf mac

/-- The hash of the first exchange. -/
def ClientView.sessionId (v : ClientView) (E : Env) : Option Bytes :=
  v.transcripts.head?.map fun x => E.digest x.preimage

/-- The keys behind the `n`-th `NEWKEYS` of a direction. -/
def ClientView.keys (v : ClientView) (E : Env) (use : KeyUse) : ℕ → Option DirKeys
  | 0 => none
  | n + 1 => do
      let x ← v.transcripts[n]?
      let sessionId ← v.sessionId E
      let f := readKexInit (x.clientKexInit.drop 17)
      let cipher ← firstCommon (use.ciphers f) encAlgs
      let mac ← firstCommon (use.macs f) macAlgs
      return x.dirKeys E use sessionId cipher mac

/-- The host key, the server's public key and the signature in a `KEXDH_REPLY`. -/
def readReply (p : Bytes) : Option (Bytes × Bytes × Bytes) :=
  let ks := rStr (rInit (p.drop 1))
  let qs := rStr ks.rest
  let blob := rStr qs.rest
  let name := rStr (rInit blob.val)
  let sig := rStr name.rest
  if blob.rest.err ∨ sig.rest.err ∨ name.val ≠ ascii "ssh-ed25519" then none
  else some (ks.val, qs.val, sig.val)

/-- What the client hashes, if the signature is right. -/
def Client.transcript (client : Client) (E : Env) (v : ClientView) (p : Bytes) :
    Option Transcript := do
  let offer ← client.offers[v.transcripts.length]?
  let serverKexInit ← v.serverInits[v.transcripts.length]?
  let (ks, qs, sig) ← readReply p
  let x : Transcript := {
    clientVersion := client.version
    serverVersion := v.serverVersion
    clientKexInit := offer.kexInit
    serverKexInit := serverKexInit
    ks := ks
    qc := (E.curvePublic offer.secret).toList
    qs := qs
    k := E.curveShared offer.secret qs }
  guard (client.verify ks (E.digest x.preimage) sig)
  return x

/-- `none` when the client gives up. -/
def Client.readPayload (client : Client) (E : Env) (v : ClientView) (p : Bytes) :
    Option ClientView :=
  if msgOf p = msgKexinit then some { v with serverInits := v.serverInits ++ [p] }
  else if msgOf p = msgKexdhReply then do
    return { v with transcripts := v.transcripts ++ [← client.transcript E v p] }
  else if msgOf p = msgNewkeys then some { v with renewals := v.renewals + 1 }
  else some v

/-- The direction it reads with, and what it has read. -/
structure ClientEnd where
  dir : Dir
  view : ClientView

def Client.read (client : Client) (E : Env) (e : ClientEnd) (stream : Bytes) :
    Option (Bytes × ClientEnd × Bytes) := do
  let (p, d, rest) ← openPacket E e.dir stream
  let v ← client.readPayload E e.view p
  return (p, ⟨if msgOf p = msgNewkeys then d.renew (v.keys E toClient v.renewals) else d, v⟩, rest)

def Client.readPackets (client : Client) (E : Env) (e : ClientEnd) :
    ℕ → Bytes → Option (List Bytes × ClientEnd × Bytes)
  | 0, stream => some ([], e, stream)
  | n + 1, stream => do
      let (ps, e, stream) ← client.readPackets E e n stream
      let (p, e, stream) ← client.read E e stream
      return (ps ++ [p], e, stream)

/-- The version line and `n` packets. -/
def Client.reads (client : Client) (E : Env) (n : ℕ) (stream : Bytes) :
    Option (List Bytes × ClientEnd × Bytes) :=
  client.readPackets E ⟨Peer.fresh.dir, ⟨firstLine stream, [], [], 0⟩⟩ n (behindLine stream)

/-- What arrives of the key exchange is what the client has sent: its `KEXINIT` for each
exchange, and the public key that goes with it. -/
def Client.Speaks (client : Client) (E : Env) (e : Event) (older : List Event) : Prop :=
  (∀ q ∈ e.payloadIn msgKexinit,
    (client.offers[(tally older).clientInits.length]?).map Offer.kexInit = some q) ∧
  ∀ q ∈ e.payloadIn msgKexdhInit, ∃ offer ∈ client.offers[(tally older).replies]?,
    CarriesKey q (E.curvePublic offer.secret).toList

instance decidableSpeaks (client : Client) (E : Env) (e : Event) (older : List Event) :
    Decidable (client.Speaks E e older) := inferInstanceAs (Decidable (_ ∧ _))

/-! ## The host key stays -/

theorem Step.host (h : Step E s t) :
    t.conn.hostSeed = s.conn.hostSeed ∧ t.conn.hostPub = s.conn.hostPub := by
  cases h with
  | disconnect h => exact h.sends.frame.host
  | reply _ _ h => exact h.frame.host
  | firstKexInit _ _ _ h =>
      obtain ⟨_, _, h⟩ := h.sends
      exact h.frame.host
  | firstKexInitFailed _ _ h =>
      obtain ⟨_, _, h⟩ := h.sends
      exact h.frame.host
  | kexInit _ _ hend =>
      exact hend.keeps (I := fun u => u.conn.hostSeed = s.conn.hostSeed ∧
        u.conn.hostPub = s.conn.hostPub) (fun _ _ hu => hu)
        (fun _ _ h hu => ⟨h.frame.host.1.trans hu.1, h.frame.host.2.trans hu.2⟩)
        (fun _ _ hu => hu) ⟨rfl, rfl⟩
  | exchange x hx hend =>
      cases hend with
      | unsigned hend => exact hend.sends.frame.host
      | replyLost _ hreply => exact hreply.frame.host
      | newKeysLost _ hreply hkeys => exact (hreply.frame.trans hkeys.frame).host
      | newKeysFailed hreply hkeys _ hend =>
          exact ((hreply.frame.trans hkeys.frame).trans hend.sends.frame).host
      | switched hreply hkeys => exact (hreply.frame.trans hkeys.frame).host
  | newKeys _ _ hend =>
      exact hend.keeps (I := fun u => u.conn.hostSeed = s.conn.hostSeed ∧
        u.conn.hostPub = s.conn.hostPub)
        (fun _ _ h hu => ⟨h.frame.host.1.trans hu.1, h.frame.host.2.trans hu.2⟩)
        (fun _ hu => hu) ⟨rfl, rfl⟩
  | authAccepted _ _ _ _ h => exact h.frame.host
  | authRejected _ _ _ _ _ h => exact h.frame.host
  | authExhausted _ _ h => exact h.sends.frame.host
  | openChannel _ _ _ _ _ _ _ _ h => exact h.frame.host
  | closeReply _ _ _ _ h => exact h.frame.host
  | read max _ hcredit =>
      obtain ⟨u, consumed, hsends, rfl⟩ := hcredit.sends
      exact hsends.frame.host
  | writeData d _ _ _ _ h => exact h.frame.host
  | writeLost d _ h => exact h.frame.host
  | startClose _ _ _ _ h =>
      obtain ⟨u, hsends, rfl⟩ := h.sends
      exact hsends.frame.host
  | _ => exact ⟨rfl, rfl⟩

/-! ## A reply behind each exchange -/

/-- As many replies and `NEWKEYS` as exchanges. -/
def Level (log : List Event) : Prop :=
  (tally log).replies = (ledger log).exchanges.length ∧
    (ledger log).renewals.length = (ledger log).exchanges.length

/-- A hash is computed when all exchanges before are through, a reply is signed with the host
key, and `NEWKEYS` goes right behind it. -/
def StepFits (seed pub : Bytes) (e : Event) (older : List Event) : Prop :=
  (∀ x c, e = .exchange x c → Level older) ∧
    ∀ p c, e = .sent p c →
      (msgOf p = msgKexdhReply → c.hostSeed = seed ∧ c.hostPub = pub) ∧
      (msgOf p = msgNewkeys → ∃ p' c' log, older = .sent p' c' :: log ∧
        msgOf p' = msgKexdhReply)

structure InStep (seed pub : Bytes) (s : Session) : Prop where
  past : Along (StepFits seed pub) s.log
  host : s.conn.hostSeed = seed ∧ s.conn.hostPub = pub
  level : s.conn.state ≠ .closed → Level s.log

/-- Neither an exchange nor one of the messages behind it. -/
def Event.IsPlain : Event → Prop
  | .exchange .. => False
  | .sent p _ => msgOf p ≠ msgKexdhReply ∧ msgOf p ≠ msgNewkeys
  | _ => True

theorem ledger_of_plain (h : ∀ e ∈ es, e.IsPlain) :
    (ledger (es ++ log)).exchanges = (ledger log).exchanges ∧
      (ledger (es ++ log)).renewals = (ledger log).renewals := by
  induction es with
  | nil => exact ⟨rfl, rfl⟩
  | cons e es ih =>
      have he := h e List.mem_cons_self
      have ih := ih fun e he => h e (List.mem_cons_of_mem _ he)
      rw [List.cons_append, ledger]
      cases e with
      | exchange => exact he.elim
      | sent p => rwa [Ledger.record, if_neg he.2]
      | dispatch p =>
          rw [Ledger.record]
          split <;> exact ih
      | _ => exact ih

theorem replies_of_plain (h : ∀ e ∈ es, e.IsPlain) :
    (tally (es ++ log)).replies = (tally log).replies := by
  have hnone : es.countP (Event.isSent msgKexdhReply) = 0 := by
    refine List.countP_eq_zero.mpr fun e he => ?_
    have he := h e he
    cases e with
    | sent p => simpa [Event.isSent] using he.1
    | _ => simp [Event.isSent]
  rw [tally, tally, List.countP_append, hnone, Nat.zero_add]

theorem stepFits_of_plain {e : Event} (h : e.IsPlain) : StepFits seed pub e log := by
  refine ⟨fun x c heq => ?_, fun p c heq => ?_⟩
  · subst heq
    exact h.elim
  · subst heq
    exact ⟨fun hmsg => absurd hmsg h.1, fun hmsg => absurd hmsg h.2⟩

/-- Only such events are recorded. -/
structure Plain (s t : Session) : Prop where
  isOpen : t.conn.state ≠ .closed → s.conn.state ≠ .closed
  log : ∃ es, t.log = es ++ s.log ∧ ∀ e ∈ es, e.IsPlain

theorem Plain.trans (h : Plain s t) (h' : Plain t u) : Plain s u := by
  obtain ⟨es, hes, hplain⟩ := h.log
  obtain ⟨es', hes', hplain'⟩ := h'.log
  refine ⟨fun hu => h.isOpen (h'.isOpen hu), es' ++ es, ?_, ?_⟩
  · rw [hes', hes, List.append_assoc]
  · exact fun e he => (List.mem_append.mp he).elim (hplain' e) (hplain e)

/-- A field other than the state is set. -/
theorem Plain.set {c : Conn} (hstate : c.state = s.conn.state) : Plain s ⟨c, s.log⟩ :=
  ⟨fun hopen => hstate ▸ hopen, [], rfl, by simp⟩

theorem Sends.plain {P : UInt8 → Prop} (h : Sends P s t) (hreply : ¬ P msgKexdhReply)
    (hkeys : ¬ P msgNewkeys) : Plain s t := by
  obtain ⟨es, hes, hsend⟩ := h.log
  refine ⟨(SameStage.of_state h.frame.state).ne_closed, es, hes, fun e he => ?_⟩
  obtain ⟨hside, hmsg⟩ := hsend e he
  cases e with
  | sent p c =>
      have hp := (hmsg p c rfl).1
      exact ⟨fun heq => hreply (heq ▸ hp), fun heq => hkeys (heq ▸ hp)⟩
  | sendFailed | kexInitFailed | closing => trivial
  | _ => cases hside

theorem Farewell.plain (h : Farewell s t) : Plain s t := h.sends.plain (by decide) (by decide)

theorem Emits.plain_of_lost {r : Int} (h : Emits p s r t) (hr : r ≠ 0) : Plain s t := by
  have hlog := h.log_eq.elim (fun h => absurd h.1 hr) And.right
  exact ⟨(SameStage.of_state h.frame.state).ne_closed, [_], hlog, by simp [Event.IsPlain]⟩

theorem Aside.plain (h : Aside s t) : Plain s t := by
  obtain ⟨es, hes, haside⟩ := h.log
  refine ⟨h.state.ne_closed, es, hes, fun e he => ?_⟩
  have he := haside e he
  cases e with
  | exchange => exact he
  | sent p c => exact ⟨fun heq => he.1 (by rw [heq]; decide), fun heq => he.1 (by rw [heq]; decide)⟩
  | _ => trivial

theorem Plain.along (h : Plain s t) (hs : Along (StepFits seed pub) s.log) :
    Along (StepFits seed pub) t.log := by
  obtain ⟨es, hes, hplain⟩ := h.log
  rw [hes]
  refine hs.append fun e newer older heq => stepFits_of_plain (hplain e ?_)
  rw [heq]
  exact List.mem_append_right _ List.mem_cons_self

theorem InStep.plain (hs : InStep seed pub s) (h : Plain s t)
    (hhost : t.conn.hostSeed = s.conn.hostSeed ∧ t.conn.hostPub = s.conn.hostPub) :
    InStep seed pub t := by
  refine ⟨h.along hs.past, ⟨hhost.1.trans hs.host.1, hhost.2.trans hs.host.2⟩, fun hopen => ?_⟩
  obtain ⟨es, hes, hplain⟩ := h.log
  obtain ⟨hreplies, hrenewals⟩ := hs.level (h.isOpen hopen)
  obtain ⟨hledger, hledger'⟩ : (ledger (es ++ s.log)).exchanges = (ledger s.log).exchanges ∧
      (ledger (es ++ s.log)).renewals = (ledger s.log).renewals := ledger_of_plain hplain
  rw [Level, hes, replies_of_plain hplain, hledger, hledger']
  exact ⟨hreplies, hrenewals⟩

theorem Exchanges.inStep (hx : Exchanges E s q x) (hs : InStep seed pub s) :
    Along (StepFits seed pub) (s.exchanged E x).log := by
  refine ⟨⟨fun y c heq => ?_, fun p c heq => ?_⟩, hs.past⟩
  · exact hs.level hx.ne_closed
  · cases heq

/-- The reply is out. -/
theorem Exchanges.replied_inStep (hx : Exchanges E s q x) (hs : InStep seed pub s)
    (h : Emits (x.reply E c) (s.exchanged E x) 0 u) :
    u.log = .sent (x.reply E c) (s.exchanged E x).conn :: (s.exchanged E x).log ∧
      Along (StepFits seed pub) u.log := by
  have hlog := h.log_eq.elim And.right fun h => absurd rfl h.1
  refine ⟨hlog, ?_⟩
  rw [hlog]
  refine ⟨⟨fun y c heq => ?_, fun p c heq => ?_⟩, hx.inStep hs⟩
  · cases heq
  · cases heq
    refine ⟨fun _ => hs.host, fun hmsg => ?_⟩
    rw [x.msgOf_reply] at hmsg
    exact absurd hmsg (by decide)

/-- Whatever becomes of an exchange: either the connection ends, or the reply goes out and
`NEWKEYS` behind it. -/
theorem ExchangeEnds.inStep {sessionId : Bytes} (hE : E.Reliable) (hx : Exchanges E s q x)
    (h : ExchangeEnds E x sessionId (s.exchanged E x) t) (hs : InStep seed pub s)
    (hhost : t.conn.hostSeed = s.conn.hostSeed ∧ t.conn.hostPub = s.conn.hostPub) :
    InStep seed pub t := by
  have hhost : t.conn.hostSeed = seed ∧ t.conn.hostPub = pub :=
    ⟨hhost.1.trans hs.host.1, hhost.2.trans hs.host.2⟩
  cases h with
  -- the connection ends, and the log need not be level any more
  | unsigned hend =>
      exact ⟨hend.plain.along (hx.inStep hs), hhost, fun h => absurd hend.closed h⟩
  | replyLost hr hreply hcause =>
      have hlost := hreply.plain_of_lost hr
      exact ⟨hlost.along (hx.inStep hs), hhost, fun h => absurd (hcause hE) h⟩
  | newKeysLost hr hreply hkeys hcause =>
      have hlost := hkeys.plain_of_lost hr
      exact ⟨hlost.along (hx.replied_inStep hs hreply).2, hhost, fun h => absurd (hcause hE) h⟩
  | newKeysFailed _ _ hcause =>
      obtain ⟨calls, hcause⟩ := hcause
      rw [hE.aesSetKey] at hcause
      cases hcause
  | @switched u v hreply hkeys =>
      obtain ⟨hreplied, hpast⟩ := hx.replied_inStep hs hreply
      have hlog : v.log = .sent newkeysPayload u.conn :: u.log :=
        hkeys.log_eq.elim And.right fun h => absurd rfl h.1
      refine ⟨?_, hhost, fun _ => ?_⟩
      · show Along _ v.log
        rw [hlog]
        refine ⟨⟨fun y c heq => ?_, fun p c heq => ?_⟩, hpast⟩
        · cases heq
        · cases heq
          refine ⟨fun hmsg => ?_, fun _ => ⟨_, _, _, hreplied, x.msgOf_reply E _⟩⟩
          rw [msgOf_newkeysPayload] at hmsg
          exact absurd hmsg (by decide)
      · show Level v.log
        obtain ⟨hreplies, hrenewals⟩ := hs.level hx.ne_closed
        have htally : (tally v.log).replies = (tally s.log).replies + 1 := by
          rw [hkeys.sends.tally_eq (by decide) (by decide), hreplied,
            tally_reply (x.msgOf_reply E _), tally_exchanged]
        have hledger : ledger v.log = { ledger s.log with
            exchanges := (ledger s.log).exchanges ++ [x]
            renewals := (ledger s.log).renewals ++ [some x] } := by
          rw [hlog, ledger, hreplied, ledger, Ledger.record, if_pos msgOf_newkeysPayload,
            Ledger.record, if_neg (by rw [x.msgOf_reply]; decide)]
          simp [Session.exchanged, ledger, Ledger.record]
        rw [Level, htally, hledger, hreplies, List.length_append, List.length_append, hrenewals]
        exact ⟨rfl, rfl⟩

theorem Step.inStep (hE : E.Reliable) (h : Step E s t) (hs : InStep seed pub s) :
    InStep seed pub t := by
  have hhost := h.host
  cases h.kexStep with
  | aside h => exact hs.plain h.plain hhost
  | acceptVersion line hstate =>
      refine hs.plain ⟨fun _ => ?_, [], rfl, by simp⟩ hhost
      rw [hstate]
      decide
  | firstKexInit _ _ _ h =>
      obtain ⟨server, sent, h⟩ := h.sends
      have hset : Plain s ⟨{ s.conn with kx :=
          { s.conn.kx with serverKexInit := server, kexInitSent := sent } }, s.log⟩ := .set rfl
      exact hs.plain (hset.trans (h.plain (by decide) (by decide))) hhost
  | firstKexInitFailed _ _ h =>
      obtain ⟨server, sent, h⟩ := h.sends
      have hset : Plain s (s.withKx
          { s.conn.kx with serverKexInit := server, kexInitSent := sent }) := .set rfl
      exact hs.plain (hset.trans (h.plain (by decide) (by decide))) hhost
  | kexInit _ _ hend =>
      refine hs.plain (hend.keeps (I := Plain s) ?_ ?_ ?_ ?_) hhost
      · exact fun u kx hu => hu.trans (.set rfl)
      · exact fun _ _ h hu => hu.trans (h.plain (by decide) (by decide))
      · exact fun u _ hu => hu.trans (.set rfl)
      · exact ⟨id, [_], rfl, by simp [Event.IsPlain]⟩
  | exchange x hx hend => exact hend.inStep hE hx hs hhost
  | newKeys _ _ hend =>
      refine hs.plain (hend.keeps (I := Plain s) ?_ ?_ ?_) hhost
      · exact fun _ _ h hu => hu.trans (h.plain (by decide) (by decide))
      · exact fun _ hu => hu.trans ⟨(Conn.sameStage_installed _).ne_closed, [], rfl, by simp⟩
      · exact ⟨id, [_], rfl, by simp [Event.IsPlain]⟩

/-! ## What the client has read -/

theorem readReply_replyBytes {ks qs sig : Bytes} (hks : ks.length < 2 ^ 32)
    (hqs : qs.length < 2 ^ 32) (hsig : sig.length = 64) :
    readReply (replyBytes ks qs sig) = some (ks, qs, sig) := by
  have hblob : (hashStr (ascii "ssh-ed25519") ++ hashStr sig).length < 2 ^ 32 := by
    rw [List.length_append, length_hashStr, length_hashStr, hsig]
    decide
  have hahead := ahead_rInit (hashStr ks ++ (hashStr qs ++
    (hashStr (hashStr (ascii "ssh-ed25519") ++ hashStr sig) ++ [])))
  obtain ⟨hks, hahead⟩ := hahead.rStr hks
  obtain ⟨hqs, hahead⟩ := hahead.rStr hqs
  obtain ⟨hblob, hahead⟩ := hahead.rStr hblob
  have hinner := ahead_rInit (hashStr (ascii "ssh-ed25519") ++ (hashStr sig ++ []))
  obtain ⟨hname, hinner⟩ := hinner.rStr (by decide)
  obtain ⟨hsig', hinner⟩ := hinner.rStr (by rw [hsig]; decide)
  rw [List.append_nil] at hname hinner hsig'
  simp only [readReply, replyBytes, List.drop_one, List.tail_cons]
  simp only [List.append_nil, ← List.append_assoc] at hks hqs hblob hahead
  rw [hblob, hks, hqs, hname, hsig', if_neg]
  rw [hahead.err, hinner.err]
  simp

/-- A transcript as it is hashed in a run. -/
def Transcript.Proper (x : Transcript) : Prop :=
  x.serverVersion = ascii sshServerVersion ∧ x.k.length = 32

theorem Transcript.Proper.key_eq (h : x.Proper) (sessionId : Bytes) (letter : Char) (need : ℕ) :
    x.key E sessionId letter need = x.derived E sessionId letter need := by
  rw [Transcript.key, x.hash_eq h.1 h.2]
  rfl

/-- The client's account agrees with the log. -/
structure View (log : List Event) (v : ClientView) : Prop where
  serverVersion : v.serverVersion = ascii sshServerVersion
  serverInits : v.serverInits = (tally log).serverInits
  transcripts : v.transcripts = (ledger log).exchanges.take v.transcripts.length
  replies : v.transcripts.length = (tally log).replies
  le : (tally log).replies ≤ (ledger log).exchanges.length
  renewals : v.renewals = (ledger log).renewals.length
  renewed : (ledger log).renewals = (v.transcripts.take v.renewals).map some
  proper : ∀ x ∈ v.transcripts, x.Proper

theorem View.congr {log' : List Event} {v : ClientView} (h : View log v)
    (hinits : (tally log').serverInits = (tally log).serverInits)
    (hreplies : (tally log').replies = (tally log).replies)
    (hexchanges : (ledger log).exchanges <+: (ledger log').exchanges)
    (hrenewals : (ledger log').renewals = (ledger log).renewals) : View log' v where
  serverVersion := h.serverVersion
  serverInits := h.serverInits.trans hinits.symm
  transcripts := by
    obtain ⟨rest, hrest⟩ := hexchanges
    rw [← hrest, List.take_append_of_le_length (h.replies ▸ h.le)]
    exact h.transcripts
  replies := h.replies.trans hreplies.symm
  le := by
    rw [hreplies]
    exact h.le.trans hexchanges.length_le
  renewals := by rw [hrenewals, h.renewals]
  renewed := hrenewals.trans h.renewed
  proper := h.proper

theorem View.renewals_le {v : ClientView} (h : View log v) :
    v.renewals ≤ v.transcripts.length := by
  have hlength := congrArg List.length h.renewed
  rw [List.length_map, List.length_take, ← h.renewals] at hlength
  omega

/-- Behind a hash, before its reply: the client has all exchanges but this one. -/
theorem View.hashed {v : ClientView} {older : List Event} (hlevel : Level older)
    (h : View (.exchange x c :: older) v) :
    v.transcripts = (ledger older).exchanges ∧
      (ledger (.exchange x c :: older)).exchanges = v.transcripts ++ [x] := by
  have hlength : v.transcripts.length = (ledger older).exchanges.length :=
    h.replies.trans hlevel.1
  have htranscripts := h.transcripts
  rw [ledger, Ledger.record, List.take_append_of_le_length hlength.le,
    List.take_of_length_le hlength.ge] at htranscripts
  exact ⟨htranscripts, by rw [ledger, Ledger.record, htranscripts]⟩

/-- The client's `KEXINIT` messages that have arrived are those it has ready. -/
theorem Client.offer_kexInit {client : Client} (h : Along (client.Speaks E) log) {n : ℕ}
    (hq : (tally log).clientInits[n]? = some q) :
    (client.offers[n]?).map Offer.kexInit = some q := by
  induction log with
  | nil => cases hq
  | cons e log ih =>
      by_cases hinit : ∃ b, e.payloadIn msgKexinit = some b
      · obtain ⟨b, hb⟩ := hinit
        have hlist : (tally (e :: log)).clientInits = (tally log).clientInits ++ [b] :=
          chronicle_cons_of_some hb
        rw [hlist] at hq
        by_cases hn : n < (tally log).clientInits.length
        · rw [List.getElem?_append_left hn] at hq
          exact ih h.2 hq
        · obtain ⟨hlt, -⟩ := List.getElem?_eq_some_iff.mp hq
          rw [List.length_append] at hlt
          obtain rfl : n = (tally log).clientInits.length := by
            simp at hlt hn
            omega
          rw [List.getElem?_concat_length] at hq
          cases hq
          exact h.1.1 _ hb
      · have hnone : e.payloadIn msgKexinit = none :=
          Option.eq_none_iff_forall_ne_some.mpr fun b hb => hinit ⟨b, hb⟩
        have hlist : (tally (e :: log)).clientInits = (tally log).clientInits :=
          chronicle_cons_of_none hnone
        rw [hlist] at hq
        exact ih h.2 hq

/-- What the client needs of the platform: the curve is commutative, and it takes the signatures
of the host key. -/
structure Client.Trusts (client : Client) (E : Env) (seed pub : Bytes) : Prop where
  shared : ∀ mine theirs,
    E.curveShared mine (E.curvePublic theirs).toList =
      E.curveShared theirs (E.curvePublic mine).toList
  verify : ∀ m, client.verify (hostKeyBlob pub) m (E.sign seed pub m) = true

/-- The client hashes what the server has hashed. -/
theorem Client.transcript_eq {client : Client} {v : ClientView} (hE : E.Reliable)
    (htrusts : client.Trusts E seed pub) (hspeaks : Along (client.Speaks E) log)
    (hx : Signed E x p c log) (hhost : c.hostSeed = seed ∧ c.hostPub = pub)
    (hversion : x.clientVersion = client.version) (hv : View log v) :
    client.transcript E v p = some x := by
  obtain ⟨q, packet, mac, c₀, c₁, older, rfl, hmsg, hcarries⟩ := hx.init
  obtain ⟨offer, hoffer, hkey⟩ := hspeaks.2.1.2 q (if_pos hmsg)
  have hreplies : (tally older).replies = v.transcripts.length := hv.replies.symm
  have hqc : x.qc = (E.curvePublic offer.secret).toList :=
    hcarries.2.1.symm.trans hkey.2.1
  have hinit := Client.offer_kexInit hspeaks hx.clientKexInit
  have hserver := hx.serverKexInit
  rw [← hv.replies] at hinit hserver
  rw [Option.mem_def, hreplies] at hoffer
  rw [hoffer] at hinit
  have hinit : offer.kexInit = x.clientKexInit := Option.some.inj hinit
  obtain ⟨mine, hqs, hk, -⟩ := hx.agreed
  have hshared : E.curveShared offer.secret x.qs = x.k := by
    rw [hqs, htrusts.shared, hk, hqc]
  have hread := readReply_replyBytes hx.sized.ks hx.sized.qs
    (hE.signature c.hostSeed c.hostPub (E.sha256 x.preimage).toList)
  rw [← hx.reply] at hread
  have hverify : client.verify x.ks (E.digest x.preimage)
      (E.sign c.hostSeed c.hostPub (E.sha256 x.preimage).toList) = true := by
    rw [hx.ks, hhost.1, hhost.2]
    exact htrusts.verify _
  rw [Client.transcript, hoffer, hv.serverInits, hserver, hread]
  simp only [Option.bind_eq_bind, Option.bind_some, hinit, hshared, ← hqc, ← hversion,
    hv.serverVersion, ← hx.serverVersion]
  rw [hverify]
  rfl

/-! ## One payload -/

section Reading

variable {client : Client} {v : ClientView} {full : Ledger}

theorem View.other (h : View log v) (hinit : msgOf p ≠ msgKexinit)
    (hreply : msgOf p ≠ msgKexdhReply) (hkeys : msgOf p ≠ msgNewkeys) :
    View (.sent p c :: log) v := by
  have htally : tally (.sent p c :: log) = tally log :=
    tally_cons ⟨rfl, if_neg hinit, by simp [Event.isSent, hreply]⟩
  have hledger : ledger (.sent p c :: log) = ledger log := if_neg hkeys
  refine h.congr ?_ ?_ ⟨[], by rw [List.append_nil, hledger]⟩ ?_
  · rw [htally]
  · rw [htally]
  · rw [hledger]

theorem View.kexInit (h : View log v) (hmsg : msgOf p = msgKexinit) :
    View (.sent p c :: log) { v with serverInits := v.serverInits ++ [p] } := by
  have htally : tally (.sent p c :: log) =
      { tally log with serverInits := (tally log).serverInits ++ [p] } := tally_sentKexInit hmsg
  have hledger : ledger (.sent p c :: log) = ledger log := if_neg (by rw [hmsg]; decide)
  exact {
    serverVersion := h.serverVersion
    serverInits := by rw [htally, h.serverInits]
    transcripts := by rw [hledger]; exact h.transcripts
    replies := by rw [htally]; exact h.replies
    le := by rw [htally, hledger]; exact h.le
    renewals := by rw [hledger]; exact h.renewals
    renewed := by rw [hledger]; exact h.renewed
    proper := h.proper }

theorem View.reply (h : View log v) (hmsg : msgOf p = msgKexdhReply) (hx : Signed E x p c log)
    (hstep : Along (StepFits seed pub) log) :
    View (.sent p c :: log) { v with transcripts := v.transcripts ++ [x] } := by
  obtain ⟨q, packet, mac, c₀, c₁, older, rfl, -⟩ := hx.init
  have hlevel : Level (.dispatch q packet mac c₁ :: older) := hstep.1.1 x c₀ rfl
  obtain ⟨-, hexchanges⟩ := h.hashed hlevel
  generalize hlog : (.exchange x c₀ :: .dispatch q packet mac c₁ :: older : List Event) = log
    at h hexchanges
  have htally : tally (.sent p c :: log) =
      { tally log with replies := (tally log).replies + 1 } := tally_reply hmsg
  have hledger : ledger (.sent p c :: log) = ledger log := if_neg (by rw [hmsg]; decide)
  have hlength : (v.transcripts ++ [x]).length = (tally log).replies + 1 := by
    rw [List.length_append, h.replies]
    rfl
  exact {
    serverVersion := h.serverVersion
    serverInits := by rw [htally, h.serverInits]
    transcripts := by rw [hledger, hexchanges, List.take_length]
    replies := by rw [htally, hlength]
    le := by rw [htally, hledger, hexchanges, hlength]
    renewals := by rw [hledger]; exact h.renewals
    renewed := by
      rw [hledger, List.take_append_of_le_length h.renewals_le]
      exact h.renewed
    proper := List.forall_mem_append.mpr ⟨h.proper, by simpa using
      ⟨hx.serverVersion, hx.sized.k⟩⟩ }

theorem ClientView.sessionId_eq {first : Transcript} (hfirst : v.transcripts.head? = some first)
    (hproper : ∀ x ∈ v.transcripts, x.Proper) : v.sessionId E = some (first.hash E) := by
  have hfproper := hproper first (List.mem_of_mem_head? hfirst)
  rw [ClientView.sessionId, hfirst, first.hash_eq hfproper.1 hfproper.2]
  rfl

/-- Both ends derive the same keys from the same exchanges. -/
theorem ClientView.keys_eq {n : ℕ} (hproper : ∀ x ∈ v.transcripts, x.Proper)
    (hx : v.transcripts[n]? = some x) (hfull : full.renewals[n]? = some (some x))
    (hhead : full.exchanges.head? = v.transcripts.head?) :
    v.keys E toClient (n + 1) = peerKeys E full (n + 1) := by
  have hxproper := hproper x (List.mem_of_getElem? hx)
  obtain ⟨first, hfirst⟩ : ∃ first, v.transcripts.head? = some first := by
    cases htranscripts : v.transcripts with
    | nil => simp [htranscripts] at hx
    | cons first rest => exact ⟨first, rfl⟩
  have hsession := ClientView.sessionId_eq (E := E) hfirst hproper
  simp only [ClientView.keys, peerKeys, hx, hfull, hhead, hfirst, hsession, Option.join_some,
    Option.bind_eq_bind, Option.bind_some, hxproper.key_eq]
  rfl

/-- Behind a reply, before `NEWKEYS`: the client has all exchanges, and keys of all but the
last. -/
theorem View.replied {p' : Bytes} {c' : Conn} {older : List Event}
    (h : View (.sent p' c' :: .exchange x c :: older) v) (hmsg : msgOf p' = msgKexdhReply)
    (hlevel : Level older) :
    v.transcripts = (ledger older).exchanges ++ [x] ∧
      v.renewals = (ledger older).exchanges.length ∧
      ledger (.sent p' c' :: .exchange x c :: older) =
        { ledger older with exchanges := v.transcripts } := by
  have hledger : ledger (.sent p' c' :: .exchange x c :: older) =
      { ledger older with exchanges := (ledger older).exchanges ++ [x] } :=
    if_neg (by rw [hmsg]; decide)
  have hlength : v.transcripts.length = ((ledger older).exchanges ++ [x]).length := by
    rw [h.replies, tally_reply hmsg, List.length_append, ← hlevel.1]
    rfl
  have htranscripts := h.transcripts
  rw [hledger, List.take_of_length_le hlength.ge] at htranscripts
  refine ⟨htranscripts, ?_, ?_⟩
  · rw [h.renewals, hledger, ← hlevel.2]
  · rw [hledger, htranscripts]

theorem View.newKeys (h : View log v) (hmsg : msgOf p = msgNewkeys)
    (hreply : Along (ReplyFits E) log) (hstep : Along (StepFits seed pub) (.sent p c :: log))
    (hexchanges : (ledger (.sent p c :: log)).exchanges <+: full.exchanges)
    (hrenewals : (ledger (.sent p c :: log)).renewals <+: full.renewals) :
    View (.sent p c :: log) { v with renewals := v.renewals + 1 } ∧
      v.keys E toClient (v.renewals + 1) = peerKeys E full (v.renewals + 1) := by
  obtain ⟨p', c', older, rfl, hmsg'⟩ := (hstep.1.2 p c rfl).2 hmsg
  -- the `NEWKEYS` stands behind the reply of its exchange, with nothing between them
  obtain ⟨x, hx⟩ := hreply.1 p' c' rfl hmsg'
  obtain ⟨q, packet, mac, c₀, c₁, older', rfl, -⟩ := hx.init
  have hlevel : Level (.dispatch q packet mac c₁ :: older') := hstep.2.2.1.1 x c₀ rfl
  obtain ⟨htranscripts, hcount, hledger⟩ := h.replied hmsg' hlevel
  generalize hrest : (.dispatch q packet mac c₁ :: older' : List Event) = rest at *
  have hlast : v.transcripts.getLast? = some x := by rw [htranscripts, List.getLast?_concat]
  have hnew : ledger (.sent p c :: .sent p' c' :: .exchange x c₀ :: rest) =
      { ledger rest with
        exchanges := v.transcripts
        renewals := (ledger rest).renewals ++ [some x] } := by
    rw [ledger, Ledger.record, if_pos hmsg, hledger, hlast]
  have htally : tally (.sent p c :: .sent p' c' :: .exchange x c₀ :: rest) =
      tally (.sent p' c' :: .exchange x c₀ :: rest) := by
    refine tally_cons ⟨rfl, if_neg (by rw [hmsg]; decide), ?_⟩
    rw [Event.isSent, hmsg]
    decide
  -- the transcript the client is about to take its keys from
  have hat : v.transcripts[v.renewals]? = some x := by
    rw [htranscripts, hcount, List.getElem?_concat_length]
  have hrenewed := h.renewed
  rw [hledger] at hrenewed
  rw [hnew] at hexchanges hrenewals
  constructor
  · exact {
      serverVersion := h.serverVersion
      serverInits := by rw [htally]; exact h.serverInits
      transcripts := by rw [hnew]; exact (List.take_length).symm
      replies := by rw [htally]; exact h.replies
      le := by
        rw [htally, hnew, ← h.replies]
      renewals := by rw [hnew, List.length_append, hlevel.2, ← hcount]; rfl
      renewed := by
        rw [hnew, List.take_add_one, hat, List.map_append, ← hrenewed]
        rfl
      proper := h.proper }
  · refine ClientView.keys_eq h.proper hat ?_ ?_
    · obtain ⟨later, hlater⟩ := hrenewals
      rw [← hlater, List.append_assoc, List.getElem?_append_right (by rw [hlevel.2, hcount]),
        hlevel.2, hcount, Nat.sub_self]
      rfl
    · obtain ⟨later, hlater⟩ := hexchanges
      rw [← hlater, htranscripts, List.head?_append, List.head?_append]
      cases (ledger rest).exchanges <;> rfl

/-- The client goes on with every payload that is sent. -/
theorem View.payload (h : View log v) (hE : E.Reliable) (htrusts : client.Trusts E seed pub)
    (hspeaks : Along (client.Speaks E) log)
    (hversion : ∀ x c, .exchange x c ∈ log → x.clientVersion = client.version)
    (hreply : Along (ReplyFits E) (.sent p c :: log))
    (hstep : Along (StepFits seed pub) (.sent p c :: log))
    (hexchanges : (ledger (.sent p c :: log)).exchanges <+: full.exchanges)
    (hrenewals : (ledger (.sent p c :: log)).renewals <+: full.renewals) :
    ∃ v', client.readPayload E v p = some v' ∧ View (.sent p c :: log) v' ∧
      if msgOf p = msgNewkeys then v'.renewals = v.renewals + 1 ∧
          v'.keys E toClient v'.renewals = peerKeys E full v'.renewals
        else v'.renewals = v.renewals := by
  by_cases hinit : msgOf p = msgKexinit
  · refine ⟨_, if_pos hinit, h.kexInit hinit, ?_⟩
    rw [if_neg (by rw [hinit]; decide)]
  by_cases hdh : msgOf p = msgKexdhReply
  · obtain ⟨x, hx⟩ := hreply.1 p c rfl hdh
    have hhost := (hstep.1.2 p c rfl).1 hdh
    obtain ⟨_, _, _, c₀, _, _, hlog, -⟩ := hx.init
    have hmem : .exchange x c₀ ∈ log := by
      rw [hlog]
      exact List.mem_cons_self
    have hread := client.transcript_eq hE htrusts hspeaks hx hhost (hversion x c₀ hmem) h
    refine ⟨{ v with transcripts := v.transcripts ++ [x] }, ?_, h.reply hdh hx hstep.2, ?_⟩
    · rw [Client.readPayload, if_neg hinit, if_pos hdh, hread]
      rfl
    · rw [if_neg (by rw [hdh]; decide)]
  by_cases hkeys : msgOf p = msgNewkeys
  · obtain ⟨hview, hsame⟩ := h.newKeys hkeys hreply.2 hstep hexchanges hrenewals
    refine ⟨{ v with renewals := v.renewals + 1 }, ?_, hview, ?_⟩
    · rw [Client.readPayload, if_neg hinit, if_neg hdh, if_pos hkeys]
    · rw [if_pos hkeys]
      exact ⟨rfl, hsame⟩
  · refine ⟨v, ?_, h.other hinit hdh hkeys, ?_⟩
    · rw [Client.readPayload, if_neg hinit, if_neg hdh, if_neg hkeys]
    · rw [if_neg hkeys]

/-! ## The whole stream -/

/-- What is no packet to the client changes nothing for it. -/
theorem View.silent {e : Event} (h : View log v) (he : e.isSending = false) :
    View (e :: log) v := by
  have hfields : (tally (e :: log)).serverInits = (tally log).serverInits ∧
      (tally (e :: log)).replies = (tally log).replies ∧
      (ledger (e :: log)).renewals = (ledger log).renewals := by
    cases e with
    | sent => cases he
    | dispatch p =>
        refine ⟨rfl, rfl, ?_⟩
        rw [ledger, Ledger.record]
        split <;> rfl
    | _ => exact ⟨rfl, rfl, rfl⟩
  obtain ⟨hinits, hreplies, hrenewals⟩ := hfields
  obtain ⟨hexchanges, -⟩ := ledger_prefix [e] log
  exact h.congr hinits hreplies hexchanges hrenewals

/-- Where a peer with the server's keys reads the packets of the log, the client does. -/
theorem Client.reads_view (hE : E.Reliable) (htrusts : client.Trusts E seed pub)
    (hspeaks : Along (client.Speaks E) log) (hreply : Along (ReplyFits E) log)
    (hstep : Along (StepFits seed pub) log)
    (hversion : ∀ x c, .exchange x c ∈ log → x.clientVersion = client.version)
    (hexchanges : (ledger log).exchanges <+: full.exchanges)
    (hrenewals : (ledger log).renewals <+: full.renewals) {stream rest : Bytes} {peer : Peer}
    (hreads : Peer.fresh.reads E (peerKeys E full) (sentCount log) stream =
      some (sentPayloads log, peer, rest)) :
    ∃ v, View log v ∧ peer.renewals = v.renewals ∧
      client.readPackets E ⟨Peer.fresh.dir, ⟨ascii sshServerVersion, [], [], 0⟩⟩ (sentCount log)
        stream = some (sentPayloads log, ⟨peer.dir, v⟩, rest) := by
  induction log generalizing peer rest with
  | nil =>
      cases hreads
      refine ⟨_, ⟨rfl, rfl, rfl, rfl, le_rfl, rfl, rfl, by simp⟩, rfl, rfl⟩
  | cons e log ih =>
      have hversion' : ∀ x c, .exchange x c ∈ log → x.clientVersion = client.version :=
        fun x c hmem => hversion x c (List.mem_cons_of_mem _ hmem)
      obtain ⟨hbefore, hbefore'⟩ := ledger_prefix [e] log
      have ih := @ih hspeaks.2 hreply.2 hstep.2 hversion' (hbefore.trans hexchanges)
        (hbefore'.trans hrenewals)
      cases he : e.isSending with
      | false =>
          have hcount : sentCount (e :: log) = sentCount log :=
            List.countP_cons_of_neg (by simp [he])
          rw [hcount, sentPayloads_cons he] at hreads ⊢
          -- neither end reads anything
          obtain ⟨v, hview, hread⟩ := ih hreads
          exact ⟨v, hview.silent he, hread⟩
      | true =>
          cases e with
          | sent p c =>
              have hcount : sentCount (.sent p c :: log) = sentCount log + 1 :=
                List.countP_cons_of_pos rfl
              rw [hcount, sentPayloads_sent] at hreads ⊢
              -- what the peer does at `p`, and before
              simp only [Peer.reads, Peer.read, Option.bind_eq_bind, Option.bind_eq_some_iff]
                at hreads
              obtain ⟨⟨ps, peer₀, stream₀⟩, hfirst, ⟨p', peer₁, rest'⟩,
                ⟨⟨p₁, d, rest₁⟩, hopen, hone⟩, hlast⟩ := hreads
              cases hone
              simp only [Option.pure_def, Option.some.injEq, Prod.mk.injEq] at hlast
              obtain ⟨hpayloads, rfl, rfl⟩ := hlast
              obtain ⟨rfl, hp⟩ := List.append_inj' hpayloads rfl
              obtain rfl : p₁ = p := by simpa using hp
              obtain ⟨v, hview, hcount', hread⟩ := ih hfirst
              obtain ⟨v', hpayload, hview', hbehind⟩ := hview.payload hE htrusts hspeaks.2 hversion'
                hreply hstep hexchanges hrenewals
              -- the two differ only in where the next keys come from
              have hend : Peer.behind (peerKeys E full) d peer₀.renewals p₁ =
                  ⟨if msgOf p₁ = msgNewkeys then d.renew (v'.keys E toClient v'.renewals) else d,
                    v'.renewals⟩ := by
                rw [Peer.behind, hcount']
                split
                · next hkeys =>
                    rw [if_pos hkeys] at hbehind
                    rw [hbehind.2, hbehind.1]
                · next hkeys =>
                    rw [if_neg hkeys] at hbehind
                    rw [hbehind]
              rw [hend]
              refine ⟨v', hview', rfl, ?_⟩
              simp only [Client.readPackets, Client.read, hread, hopen, hpayload,
                Option.bind_eq_bind, Option.bind_some]
              rfl
          | _ => cases he

end Reading

/-! ## The result -/

theorem getElem?_of_map_some {α : Type*} {xs : List α} {n : ℕ} {y : α}
    (h : (xs.map some)[n]? = some (some y)) : xs[n]? = some y := by
  rw [List.getElem?_map] at h
  obtain ⟨z, hz, hsome⟩ := Option.map_eq_some_iff.mp h
  cases hsome
  exact hz

/-- With the same exchanges a client has the keys that the server sends with. -/
theorem Keyed.eq_toClient {l : Ledger} {v : ClientView} {n : ℕ} {held : Option DirKeys}
    (h : Keyed (outKeys E) E l n held) (hproper : ∀ x ∈ v.transcripts, x.Proper)
    (hexchanges : l.exchanges = v.transcripts) (hrenewals : l.renewals = v.transcripts.map some) :
    v.keys E toClient n = held := by
  have hkeys := h.eq_peerKeys
  cases h with
  | clear => rfl
  | renewed hx =>
      have hat := getElem?_of_map_some (hrenewals ▸ hx)
      rw [← hkeys]
      exact ClientView.keys_eq hproper hat hx (congrArg List.head? hexchanges)

/-- And those that it reads with. -/
theorem Keyed.eq_toServer {l : Ledger} {v : ClientView} {n : ℕ} {held : Option DirKeys}
    (h : Keyed (inKeys E) E l n held) (hproper : ∀ x ∈ v.transcripts, x.Proper)
    (hexchanges : l.exchanges = v.transcripts) (hrenewals : l.renewals = v.transcripts.map some) :
    v.keys E toServer n = held := by
  cases h with
  | clear => rfl
  | @renewed n x first f k hx hfirst hform hchosen =>
      have hat := getElem?_of_map_some (hrenewals ▸ hx)
      rw [hexchanges] at hfirst
      have hxproper := hproper x (List.mem_of_getElem? hat)
      have hsession := ClientView.sessionId_eq (E := E) hfirst hproper
      obtain ⟨cipher, hcipher, hlen⟩ := hchosen.cipherIn
      obtain ⟨mac, hmac, htype⟩ := hchosen.macIn
      have hread := (ClientKexInit.readKexInit_of_encodes hform).2
      simp only [ClientView.keys, toServer, hat, hsession, hread, ClientKexInit.fields,
        hcipher, hmac, Option.bind_eq_bind, Option.bind_some, Transcript.dirKeys, hlen.eq,
        htype.eq, inKeys, hxproper.key_eq]
      rfl

theorem firstLine_serverVersion (rest : Bytes) :
    firstLine (ascii sshServerVersion ++ [cr, lf] ++ rest) = ascii sshServerVersion := by
  have hplain := List.all_eq_true.mp (show (ascii sshServerVersion).all (· ≠ lf) = true from rfl)
  have hend : lineEnd (ascii sshServerVersion ++ [cr, lf] ++ rest) =
      (ascii sshServerVersion).length + 1 := by
    rw [lineEnd, List.append_assoc, List.takeWhile_append_of_pos hplain]
    rfl
  rw [firstLine, hend, if_pos ⟨Nat.succ_pos _, rfl⟩]
  rfl

theorem inStep_new (seed pub : Bytes) : InStep seed pub ⟨newConn seed pub, []⟩ :=
  ⟨trivial, ⟨rfl, rfl⟩, fun _ => ⟨rfl, rfl⟩⟩

theorem Frames.length {frames : List Bytes} (h : Frames E log frames) :
    frames.length = sentCount log := by
  induction h with
  | nil => rfl
  | sent _ _ ih =>
      rw [List.length_append, ih, sentCount, sentCount, List.countP_cons_of_pos rfl]
      rfl
  | other _ he ih =>
      rw [ih, sentCount, sentCount, List.countP_cons_of_neg (by simp [he])]

/-- **Key agreement.**  Let no allocation and no crypto call fail in a run that begins with
`SshAccept`, and let the version line and the messages of the key exchange that arrive be
those of a client that knows the host key.  Out of its own private keys and the bytes that the
transport has accepted the client reads all payloads sent and nothing else, with every
signature verified; and as long as the connection is open both ends have the same exchanges,
session id and keys. -/
theorem client_agrees (hE : E.Reliable) {connSize : ℕ} {hostSeed : Bytes} {calls : List Call}
    {input : List ReadResult} {s₀ s₁ s : Server}
    (hnew : sshNew E connSize hostSeed calls input = some s₀) {rounds : ℕ}
    (haccept : runCall E (.accept rounds) s₀ = .ok ((), s₁)) (hruns : Runs E s₁ s)
    {client : Client} (htrusts : client.Trusts E hostSeed (E.hostPublic hostSeed).toList)
    (hversion : s.link.conn.clientVersion = client.version)
    (hspeaks : Along (client.Speaks E) s.link.log) :
    ∃ stream d v, delivered E s.link.calls = delivered E s₀.link.calls ++ stream ∧
      client.reads E (sentCount s.link.log) stream.flatten =
        some (sentPayloads s.link.log, ⟨d, v⟩, []) ∧
      (s.link.conn.state ≠ .closed →
        v.transcripts = (ledger s.link.log).exchanges ∧
        v.sessionId E = s.link.conn.kx.sessionId ∧
        v.keys E toClient v.renewals = s.link.conn.outDir.keys ∧
        v.keys E toServer (ledger s.link.log).arrived = s.link.conn.inDir.keys) := by
  have hall := (Runs.none.call _ haccept).trans hruns
  have hreach : Reachable E s := ⟨_, _, _, _, s₀, hnew, hall⟩
  have hkept : TranscriptKept E s.link.toSession :=
    hreach.invariant transcriptKept_new fun _ _ => Step.transcriptKept hE
  have hsteps := (hall.moves (sshNew_sound hnew)).1
  rw [(sshNew_eq hnew).1] at hsteps
  have hinstep : InStep hostSeed (E.hostPublic hostSeed).toList s.link.toSession :=
    hsteps.invariant (fun _ _ => Step.inStep hE) (inStep_new _ _)
  have hhashed : ∀ x c, .exchange x c ∈ s.link.log → x.clientVersion = client.version :=
    fun x c hmem => (hkept.hashed x c hmem).1.trans hversion
  have hstreamed := hruns.streamed hE.aesSetKey hnew haccept
  obtain ⟨frames, hframes, hdelivered, hearly⟩ := hstreamed.stream
  have hreads := reads_frames hframes hstreamed.past (hreach.sentUnderKeys hE.aesSetKey) []
  rw [List.append_nil] at hreads
  obtain ⟨v, hview, -, hread⟩ := Client.reads_view hE htrusts hspeaks hkept.past hinstep.past
    hhashed List.prefix_rfl List.prefix_rfl hreads
  cases hsent : s.link.conn.versionSent with
  | false =>
      -- nothing was sent
      obtain ⟨hclosed, rfl⟩ := hearly hsent
      have hzero : sentCount s.link.log = 0 := hframes.length.symm
      rw [hzero, Client.readPackets, Option.some.injEq, Prod.mk.injEq] at hread
      refine ⟨[], Peer.fresh.dir, ⟨firstLine [], [], [], 0⟩, ?_, ?_,
        fun hopen => absurd hclosed hopen⟩
      · rw [hdelivered, lineSent, hsent]
        simp
      · rw [hzero, ← hread.1]
        rfl
  | true =>
      have hline : lineSent s.link.conn = [ascii sshServerVersion ++ [cr, lf]] := if_pos hsent
      refine ⟨lineSent s.link.conn ++ frames,
        (peerAt (peerKeys E (ledger s.link.log)) s.link.log).dir, v,
        by rw [hdelivered, List.append_assoc], ?_, fun hopen => ?_⟩
      · rw [Client.reads, behindLine_stream fun hno => (hearly hno).2, hline, List.singleton_append,
          List.flatten_cons, firstLine_serverVersion]
        exact hread
      · obtain ⟨hreplies, hrenewals⟩ := hinstep.level hopen
        have htranscripts : v.transcripts = (ledger s.link.log).exchanges := by
          rw [hview.transcripts, List.take_of_length_le (by rw [hview.replies, hreplies])]
        have hrenewed : (ledger s.link.log).renewals = v.transcripts.map some := by
          rw [hview.renewed, List.take_of_length_le]
          rw [hview.renewals, hrenewals, htranscripts]
        obtain ⟨hsession, -, -, hkeys⟩ := key_schedule hreach
        obtain ⟨hout, hin⟩ := hkeys hopen
        refine ⟨htranscripts, ?_, ?_, hin.eq_toServer hview.proper htranscripts.symm hrenewed⟩
        · rw [hsession, ← htranscripts, ClientView.sessionId]
          refine Option.map_congr fun x hx => ?_
          have hproper := hview.proper x (List.mem_of_mem_head? hx)
          exact (x.hash_eq hproper.1 hproper.2).symm
        · rw [hview.renewals]
          exact hout.eq_toClient hview.proper htranscripts.symm hrenewed

/-- The client of the scenarios. -/
def plainClient : Client where
  version := ascii "SSH-2.0-client"
  offers := [⟨clientKexInit, []⟩]
  verify _ _ sig := sig = (zeros 64).toList

theorem plainClient_trusts (accepts : Bytes → Bytes → Bool) (seed pub : Bytes) :
    plainClient.Trusts (plainEnv accepts) seed pub where
  shared _ _ := rfl
  verify _ := by simp [plainClient, plainEnv]

/-- At the end of a login both ends have taken part in one exchange and hold the same keys. -/
theorem client_agrees_login : ∃ (s : Server) (stream : Bytes) (e : ClientEnd),
    Reachable (plainEnv fun _ _ => true) s ∧ (s.link.conn.outDir.active = true ∧
      s.link.conn.inDir.active = true) ∧ e.view.transcripts.length = 1 ∧
    plainClient.reads (plainEnv fun _ _ => true) (sentCount s.link.log) stream =
      some (sentPayloads s.link.log, e, []) ∧
    e.view.keys (plainEnv fun _ _ => true) toClient e.view.renewals = s.link.conn.outDir.keys ∧
    e.view.keys (plainEnv fun _ _ => true) toServer (ledger s.link.log).arrived =
      s.link.conn.inDir.keys := by
  have htest : (scenario (plainEnv fun _ _ => true) [.accept 1]
      [.data (clientLogin "root" "secret")]).any (fun s => decide
        ((s.link.conn.state ≠ .closed ∧ s.link.conn.clientVersion = plainClient.version) ∧
          (s.link.conn.outDir.active = true ∧ s.link.conn.inDir.active = true) ∧
          (ledger s.link.log).exchanges.length = 1 ∧
          Along (plainClient.Speaks (plainEnv fun _ _ => true)) s.link.log)) = true := by
    decide +kernel
  obtain ⟨s, hend, htest⟩ := (Option.any_eq_true _ _).mp htest
  obtain ⟨⟨hopen, hversion⟩, hactive, hone, hspeaks⟩ := of_decide_eq_true htest
  obtain ⟨s₀, s₁, hnew, haccept, hruns⟩ := scenario_first hend
  obtain ⟨stream, d, v, -, hreads, hagree⟩ := client_agrees (plainEnv_reliable _) hnew haccept
    hruns (plainClient_trusts _ _ _) hversion hspeaks
  obtain ⟨htranscripts, -, hkeys, hkeys'⟩ := hagree hopen
  exact ⟨s, stream.flatten, ⟨d, v⟩, scenario_reachable hend, hactive,
    by rw [htranscripts, hone], hreads, hkeys, hkeys'⟩

end EfiSshServer
