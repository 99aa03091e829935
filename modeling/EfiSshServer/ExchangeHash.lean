import EfiSshServer.ClientVersion
import EfiSshServer.Mpint
import EfiSshServer.Scenario

/-!
# What the exchange hash covers

`DoKexDh` hashes values that were kept at different times, in buffers that a later exchange
replaces.  `exchange_transcript` says that they are nevertheless those of one exchange: the
`i`-th reply signs the `i`-th `KEXINIT` of each side and the keys of the very messages it
answers and carries.

## Strategy

* `Transcript.preimage` is what is hashed, and `Transcript.preimage_inj` reads it back:
  every string ends where its length says, and an `mpint` with its 32 bytes gives the
  secret.
* `tally` counts what went over the wire.  `KexPhase` relates it to the connection: an exchange
  is not there yet, is announced by the server, or has a `KEXINIT` of both sides.  The
  server's may come before the client's or behind it.
* Most steps change nothing of this (`Aside`).  Of the others only `Step.exchange` records a
  hash or a reply (`Hashless`), and what it hashes is what `KexPhase` says of the buffers.
-/

namespace EfiSshServer

open StateProgram History BigEndian

variable {E : Env} {q p : Bytes} {r : Int} {s t u : Session} {c : Conn} {x y : Transcript}
  {log es : List Event}

/-! ## The encoding -/

namespace Transcript

/-- `V_C`, `V_S`, `I_C`, `I_S`, `K_S`, `Q_C` and `Q_S` as strings, and `K` as an `mpint`. -/
def preimage (x : Transcript) : Bytes :=
  hashStr x.clientVersion ++ hashStr x.serverVersion ++ hashStr x.clientKexInit ++
    hashStr x.serverKexInit ++ hashStr x.ks ++ hashStr x.qc ++ hashStr x.qs ++
    hashStr (mpintBody x.k)

/-- Every string has a length that its length word can say, and the secret is one of the
curve. -/
structure Sized (x : Transcript) : Prop where
  clientVersion : x.clientVersion.length < 2 ^ 32
  serverVersion : x.serverVersion.length < 2 ^ 32
  clientKexInit : x.clientKexInit.length < 2 ^ 32
  serverKexInit : x.serverKexInit.length < 2 ^ 32
  ks : x.ks.length < 2 ^ 32
  qc : x.qc.length < 2 ^ 32
  qs : x.qs.length < 2 ^ 32
  k : x.k.length = 32

/-- What is hashed determines all eight values. -/
theorem preimage_inj (hx : x.Sized) (hy : y.Sized) (h : x.preimage = y.preimage) : x = y := by
  simp only [preimage, List.append_assoc] at h
  obtain ⟨hvc, h⟩ := hashStr_append_inj hx.clientVersion hy.clientVersion h
  obtain ⟨hvs, h⟩ := hashStr_append_inj hx.serverVersion hy.serverVersion h
  obtain ⟨hic, h⟩ := hashStr_append_inj hx.clientKexInit hy.clientKexInit h
  obtain ⟨his, h⟩ := hashStr_append_inj hx.serverKexInit hy.serverKexInit h
  obtain ⟨hks, h⟩ := hashStr_append_inj hx.ks hy.ks h
  obtain ⟨hqc, h⟩ := hashStr_append_inj hx.qc hy.qc h
  obtain ⟨hqs, h⟩ := hashStr_append_inj hx.qs hy.qs h
  have hbody : mpintBody x.k = mpintBody y.k := (List.append_inj h rfl).2
  have hk : x.k = y.k := unsigned_inj (hx.k.trans hy.k.symm) (mpintBody_eq_iff.mp hbody)
  cases x
  cases y
  simp only [mk.injEq]
  exact ⟨hvc, hvs, hic, his, hks, hqc, hqs, hk⟩

theorem kMp_eq (hk : x.k.length = 32) : x.kMp = hashStr (mpintBody x.k) := by
  have hroom : (wInit (4 + 33)).data.length + (x.k.length + 5) ≤ (wInit (4 + 33)).cap := by
    rw [hk]
    decide
  have hsane : (x.k.dropWhile (· = 0)).length ≤ rtInsaneLen :=
    (List.dropWhile_suffix _).length_le.trans (by rw [hk]; decide)
  rw [kMp, wMpint_eq rfl rfl hsane hroom]
  rfl

theorem hash_eq (hversion : x.serverVersion = ascii sshServerVersion) (hk : x.k.length = 32) :
    x.hash E = (E.sha256 x.preimage).toList := by
  rw [hash, exchangeHash, preimage, kMp_eq hk, hversion]

end Transcript

/-- A `KEXDH_REPLY` with the host key blob `ks`, the public key `qs` and the signature
`sig`. -/
def replyBytes (ks qs sig : Bytes) : Bytes :=
  msgKexdhReply :: (hashStr ks ++ hashStr qs ++
    hashStr (hashStr (ascii "ssh-ed25519") ++ hashStr sig))

/-- The reply carries what it signs. -/
theorem Transcript.reply_eq (hE : E.Reliable) (hversion : x.serverVersion = ascii sshServerVersion)
    (hks : x.ks.length ≤ 51) (hqs : x.qs.length = 32) (hk : x.k.length = 32) :
    x.reply E c = replyBytes x.ks x.qs
      (E.sign c.hostSeed c.hostPub (E.sha256 x.preimage).toList) := by
  have hsig := hE.signature c.hostSeed c.hostPub (E.sha256 x.preimage).toList
  have hblob : (hashStr (ascii "ssh-ed25519") ++ hashStr
      (E.sign c.hostSeed c.hostPub (E.sha256 x.preimage).toList)).length = 83 := by
    rw [List.length_append, length_hashStr, length_hashStr, hsig]
    decide
  rw [reply, hash_eq hversion hk, kexdhReplyPayload_eq hks hqs hsig, replyBytes,
    hashStr.eq_def (hashStr _ ++ _), hblob]
  simp

/-! ## What went over the wire -/

/-- The payload of a dispatched packet with message number `m`. -/
def Event.payloadIn (m : UInt8) : Event → Option Bytes
  | .dispatch p _ _ _ => if msgOf p = m then some p else none
  | _ => none

/-- The payload of a packet sent with message number `m`. -/
def Event.payloadOut (m : UInt8) : Event → Option Bytes
  | .sent p _ => if msgOf p = m then some p else none
  | _ => none

/-- The `KEXINIT` messages of both sides, in order, and the number of replies. -/
structure Tally where
  clientInits : List Bytes
  serverInits : List Bytes
  replies : ℕ

def tally (log : List Event) : Tally where
  clientInits := chronicle (Event.payloadIn msgKexinit) log
  serverInits := chronicle (Event.payloadOut msgKexinit) log
  replies := log.countP (Event.isSent msgKexdhReply)

/-- The event is neither a `KEXINIT` nor a reply. -/
def Event.Uncounted (e : Event) : Prop :=
  e.payloadIn msgKexinit = none ∧ e.payloadOut msgKexinit = none ∧
    e.isSent msgKexdhReply = false

theorem tally_append (h : ∀ e ∈ es, e.Uncounted) : tally (es ++ log) = tally log := by
  have hreplies : es.countP (Event.isSent msgKexdhReply) = 0 :=
    List.countP_eq_zero.mpr fun e he => by simp [(h e he).2.2]
  rw [tally, tally, chronicle_append_of_none fun e he => (h e he).1,
    chronicle_append_of_none fun e he => (h e he).2.1, List.countP_append, hreplies, Nat.zero_add]

theorem tally_cons {e : Event} (h : e.Uncounted) : tally (e :: log) = tally log := by
  have hall : ∀ e' ∈ [e], e'.Uncounted := by simpa using h
  exact tally_append hall

/-- The client's `KEXINIT` arrives. -/
theorem tally_kexInit {packet mac : Bytes} (hmsg : msgOf q = msgKexinit) :
    tally (.dispatch q packet mac c :: log) =
      { tally log with clientInits := (tally log).clientInits ++ [q] } := by
  rw [tally, chronicle_cons_of_some (b := q) (by simp [Event.payloadIn, hmsg]),
    chronicle_cons_of_none rfl, List.countP_cons_of_neg (by simp [Event.isSent])]
  rfl

/-- The server sends its own. -/
theorem tally_sentKexInit (hmsg : msgOf p = msgKexinit) :
    tally (.sent p c :: log) =
      { tally log with serverInits := (tally log).serverInits ++ [p] } := by
  rw [tally, chronicle_cons_of_none rfl,
    chronicle_cons_of_some (b := p) (by simp [Event.payloadOut, hmsg]),
    List.countP_cons_of_neg (by simp [Event.isSent, hmsg]; decide)]
  rfl

theorem tally_reply (hmsg : msgOf p = msgKexdhReply) :
    tally (.sent p c :: log) = { tally log with replies := (tally log).replies + 1 } := by
  rw [tally, chronicle_cons_of_none rfl,
    chronicle_cons_of_none (by simp [Event.payloadOut, hmsg]; decide),
    List.countP_cons_of_pos (by simp [Event.isSent, hmsg])]
  rfl

theorem Event.sendsIn.uncounted {P : UInt8 → Prop} {e : Event} (h : e.sendsIn P c)
    (hinit : ¬ P msgKexinit) (hreply : ¬ P msgKexdhReply) : e.Uncounted := by
  obtain ⟨hside, hmsg⟩ := h
  cases e with
  | sent p c' =>
      have hp := (hmsg p c' rfl).1
      have hother : ∀ m, ¬ P m → msgOf p ≠ m := fun m hm heq => hm (heq ▸ hp)
      refine ⟨rfl, if_neg (hother _ hinit), ?_⟩
      simpa [Event.isSent] using hother _ hreply
  | sendFailed | kexInitFailed | closing => exact ⟨rfl, rfl, rfl⟩
  | _ => cases hside

theorem Sends.tally_eq {P : UInt8 → Prop} (h : Sends P s t) (hinit : ¬ P msgKexinit)
    (hreply : ¬ P msgKexdhReply) : tally t.log = tally s.log := by
  obtain ⟨es, hes, hsend⟩ := h.log
  rw [hes]
  exact tally_append fun e he => (hsend e he).uncounted hinit hreply

theorem Aside.tally_eq (h : Aside s t) : tally t.log = tally s.log := by
  obtain ⟨es, hes, haside⟩ := h.log
  rw [hes]
  refine tally_append fun e he => ?_
  have he := haside e he
  cases e with
  | sent p c' =>
      have hother : ∀ m ∈ kexMessages, msgOf p ≠ m := fun m hm heq => he.1 (heq ▸ hm)
      refine ⟨rfl, if_neg (hother _ (by decide)), ?_⟩
      simpa [Event.isSent] using hother msgKexdhReply (by decide)
  | dispatch => exact ⟨if_neg he.1.1, rfl, rfl⟩
  | _ => exact ⟨rfl, rfl, rfl⟩


/-! ## How far an exchange has come -/

/-- `b` is the last of `ps`, and has number `n` there. -/
def Newest (b : Option Bytes) (ps : List Bytes) (n : ℕ) : Prop :=
  ∃ front p, ps = front ++ [p] ∧ front.length = n ∧ b = some p ∧ p.length ≤ sshMaxPacket

theorem Newest.length {b : Option Bytes} {ps : List Bytes} {n : ℕ} (h : Newest b ps n) :
    ps.length = n + 1 := by
  obtain ⟨front, p, rfl, rfl, -⟩ := h
  exact List.length_append

theorem Newest.getElem? {ps : List Bytes} {n : ℕ} (h : Newest (some p) ps n) :
    ps[n]? = some p ∧ p.length ≤ sshMaxPacket := by
  obtain ⟨front, p', rfl, rfl, ⟨⟩, hlen⟩ := h
  exact ⟨List.getElem?_concat_length, hlen⟩

/-- The connection beside what went over the wire. -/
inductive KexPhase (c : Conn) (n : Tally) : Prop
  /-- No side has begun another exchange. -/
  | between (hkex : c.kex ≠ .waitDh) (hnew : c.kx.kexInitSent = false)
      (hclient : n.clientInits.length = n.replies) (hserver : n.serverInits.length = n.replies)
  /-- The server has. -/
  | announced (hkex : c.kex ≠ .waitDh) (hsent : c.kx.kexInitSent = true)
      (hclient : n.clientInits.length = n.replies)
      (hserver : Newest c.kx.serverKexInit n.serverInits n.replies)
  /-- Both have. -/
  | negotiated (hkex : c.kex = .waitDh) (hnew : c.kx.kexInitSent = false)
      (hclient : Newest c.kx.clientKexInit n.clientInits n.replies)
      (hserver : Newest c.kx.serverKexInit n.serverInits n.replies)

theorem KexPhase.congr {c' : Conn} {n : Tally} (h : KexPhase c n) (hkex : c'.kex = c.kex)
    (hsent : c'.kx.kexInitSent = c.kx.kexInitSent)
    (hclient : c'.kx.clientKexInit = c.kx.clientKexInit)
    (hserver : c'.kx.serverKexInit = c.kx.serverKexInit) : KexPhase c' n := by
  cases h with
  | between h h' => exact .between (hkex ▸ h) (hsent ▸ h') ‹_› ‹_›
  | announced h h' _ h'' => exact .announced (hkex ▸ h) (hsent ▸ h') ‹_› (hserver ▸ h'')
  | negotiated h h' hc hs =>
      exact .negotiated (hkex ▸ h) (hsent ▸ h') (hclient ▸ hc) (hserver ▸ hs)

/-- What holds of the server's side until the client's `KEXINIT` comes. -/
structure Awaiting (c : Conn) (n : Tally) : Prop where
  new : c.kx.kexInitSent = false → n.serverInits.length = n.replies
  announced : c.kx.kexInitSent = true → Newest c.kx.serverKexInit n.serverInits n.replies

theorem KexPhase.awaiting {n : Tally} (h : KexPhase c n) (hkex : c.kex ≠ .waitDh) :
    n.clientInits.length = n.replies ∧ Awaiting c n := by
  cases h with
  | between _ hnew hclient hserver =>
      refine ⟨hclient, fun _ => hserver, fun h => ?_⟩
      rw [hnew] at h
      cases h
  | announced _ hsent hclient hserver =>
      refine ⟨hclient, fun h => ?_, fun _ => hserver⟩
      rw [hsent] at h
      cases h
  | negotiated h => exact absurd h hkex

theorem KexPhase.between_or_announced {n : Tally} (hkex : c.kex ≠ .waitDh)
    (hclient : n.clientInits.length = n.replies) (h : Awaiting c n) : KexPhase c n := by
  cases hsent : c.kx.kexInitSent with
  | false => exact .between hkex hsent hclient (h.new hsent)
  | true => exact .announced hkex hsent hclient (h.announced hsent)

/-- The server's `KEXINIT` is number `replies`, whether it was sent before or just now. -/
theorem KexInitDone.tally_eq (h : KexInitDone s t) (hs : Awaiting s.conn (tally s.log)) :
    ∃ inits, tally t.log = { tally s.log with serverInits := inits } ∧
      Newest t.conn.kx.serverKexInit inits (tally s.log).replies := by
  cases h with
  | earlier hsent => exact ⟨_, rfl, hs.announced hsent⟩
  | @sent payload _ hnew hform hsent =>
      have hlog : t.log = .sent payload _ :: s.log :=
        hsent.log_eq.elim And.right fun h => absurd rfl h.1
      rw [hlog, tally_sentKexInit hform.msgOf]
      refine ⟨_, rfl, (tally s.log).serverInits, payload, rfl, hs.new hnew, ?_,
        hform.length_le⟩
      rw [hsent.frame.kx]

/-- On a reliable platform only the transport makes `SendKexInit` fail. -/
theorem KexInitFails.closed (hE : E.Reliable) (h : KexInitFails E s t) :
    t.conn.state = .closed := by
  cases h with
  | noCookie hcause | noMemory hcause => exact absurd hE hcause
  | lost _ _ _ hcause => exact hcause hE

theorem HandlesKexInit.phase {packet mac : Bytes} (hE : E.Reliable) (hmsg : msgOf q = msgKexinit)
    (hfits : q.length ≤ sshMaxPacket) (h : HandlesKexInit E q (s.dispatched q packet mac) t)
    (hs : KexPhase s.conn (tally s.log)) (ht : t.conn.state ≠ .closed) :
    KexPhase t.conn (tally t.log) := by
  cases h with
  | unexpected _ hend | noMemory _ hend | notNegotiated _ _ _ _ _ hend =>
      exact absurd hend.closed ht
  | failed _ _ hfail => exact absurd (hfail.closed hE) ht
  | negotiated k hkex hdone hsame hsent =>
      obtain ⟨hclient, hserver⟩ := hs.awaiting hkex.ne_waitDh
      have htally : tally (s.dispatched q packet mac).log = _ := tally_kexInit hmsg
      obtain ⟨inits, hinits, hnewest⟩ := hdone.tally_eq (by
        rw [Session.withKx, htally]
        exact ⟨hserver.new, hserver.announced⟩)
      rw [Session.withKx, htally] at hinits hnewest
      rw [hinits]
      refine .negotiated rfl hsent ?_ ?_
      · rw [hsame.1, hdone.clientKexInit]
        exact ⟨_, q, rfl, hclient, rfl, hfits⟩
      · rw [hsame.2.1]
        exact hnewest

theorem HandlesNewKeys.phase {packet mac : Bytes} (hmsg : msgOf q = msgNewkeys)
    (h : HandlesNewKeys (s.dispatched q packet mac) t) (hs : KexPhase s.conn (tally s.log))
    (ht : t.conn.state ≠ .closed) : KexPhase t.conn (tally t.log) := by
  cases h with
  | unexpected _ hend | failed _ hend => exact absurd hend.closed ht
  | applied hkex =>
      have hkex : s.conn.kex = .waitNewkeys := hkex
      obtain ⟨hclient, hserver⟩ := hs.awaiting (by rw [hkex]; decide)
      have htally : tally (s.dispatched q packet mac).log = tally s.log :=
        tally_cons ⟨if_neg (by rw [hmsg]; decide), rfl, rfl⟩
      rw [htally]
      exact .between_or_announced (by simp [Conn.installed]) hclient
        ⟨hserver.new, hserver.announced⟩

/-! ## Steps without a reply -/

/-- Neither an exchange nor a reply; of a version line it says which it is. -/
def Event.IsHashless : Event → Prop
  | .exchange .. => False
  | .sent p _ => msgOf p ≠ msgKexdhReply
  | .versionSent line => line = ascii sshServerVersion ++ [cr, lf]
  | _ => True

/-- No exchange hash is computed and no reply sent. -/
structure Hashless (s t : Session) : Prop where
  state : SameStage s.conn t.conn
  clientVersion : t.conn.clientVersion = s.conn.clientVersion
  log : ∃ es, t.log = es ++ s.log ∧ ∀ e ∈ es, e.IsHashless

theorem Hashless.of_log_eq (hlog : t.log = s.log)
    (hstate : t.conn.state = s.conn.state ∨ t.conn.state = .closed)
    (hversion : t.conn.clientVersion = s.conn.clientVersion) : Hashless s t :=
  ⟨.of_state hstate, hversion, [], hlog, by simp⟩

theorem Hashless.trans (h : Hashless s t) (h' : Hashless t u) : Hashless s u := by
  obtain ⟨es, hes, hevents⟩ := h.log
  obtain ⟨es', hes', hevents'⟩ := h'.log
  refine ⟨h.state.trans h'.state, h'.clientVersion.trans h.clientVersion, es' ++ es, ?_, ?_⟩
  · rw [hes', hes, List.append_assoc]
  · exact fun e he => (List.mem_append.mp he).elim (hevents' e) (hevents e)

theorem Sends.hashless {P : UInt8 → Prop} (h : Sends P s t) (hP : ¬ P msgKexdhReply) :
    Hashless s t := by
  obtain ⟨es, hes, hsend⟩ := h.log
  refine ⟨.of_state h.frame.state, h.frame.clientVersion, es, hes, fun e he => ?_⟩
  obtain ⟨hside, hmsg⟩ := hsend e he
  cases e with
  | sent p c => exact fun heq => hP (heq ▸ (hmsg p c rfl).1)
  | sendFailed | kexInitFailed | closing => trivial
  | _ => cases hside

theorem Farewell.hashless (h : Farewell s t) : Hashless s t := h.sends.hashless (by decide)

theorem Aside.hashless (h : Aside s t) : Hashless s t := by
  obtain ⟨es, hes, haside⟩ := h.log
  refine ⟨h.state, h.clientVersion, es, hes, fun e he => ?_⟩
  have he := haside e he
  cases e with
  | exchange => exact he
  | sent p c => exact fun heq => he.1 (by rw [heq]; decide)
  | versionSent => exact he
  | _ => trivial

theorem KexInitDone.hashless (h : KexInitDone s t) : Hashless s t := by
  obtain ⟨server, sent, h⟩ := h.sends
  have hkept : Hashless s ⟨{ s.conn with kx :=
      { s.conn.kx with serverKexInit := server, kexInitSent := sent } }, s.log⟩ :=
    .of_log_eq rfl (.inl rfl) rfl
  exact hkept.trans (h.hashless (by decide))

theorem KexInitFails.hashless (h : KexInitFails E s t) : Hashless s t := by
  obtain ⟨server, sent, h⟩ := h.sends
  have hkept : Hashless s (s.withKx
      { s.conn.kx with serverKexInit := server, kexInitSent := sent }) :=
    .of_log_eq rfl (.inl rfl) rfl
  exact hkept.trans (h.hashless (by decide))

theorem Hashless.dispatched {packet mac : Bytes} : Hashless s (s.dispatched q packet mac) :=
  ⟨.of_state (.inl rfl), rfl, [_], rfl, by simp [Event.IsHashless]⟩

theorem HandlesKexInit.hashless (h : HandlesKexInit E q s t) : Hashless s t :=
  h.keeps (I := Hashless s) (fun _ _ hu => hu.trans (.of_log_eq rfl (.inl rfl) rfl))
    (fun _ _ h hu => hu.trans (h.hashless (by decide)))
    (fun _ _ hu => hu.trans (.of_log_eq rfl (.inl rfl) rfl)) (.of_log_eq rfl (.inl rfl) rfl)

theorem HandlesNewKeys.hashless (h : HandlesNewKeys s t) : Hashless s t :=
  h.keeps (I := Hashless s) (fun _ _ h hu => hu.trans (h.hashless (by decide)))
    (fun _ _ => ⟨s.conn.sameStage_installed, rfl, [], rfl, by simp⟩)
    (.of_log_eq rfl (.inl rfl) rfl)


/-! ## What a reply signs -/

/-- The reply `p` of the connection `c`, sent behind `older`, signs the hash of `x`: the
values of exchange number `(tally older).replies`, of the `KEXDH_INIT` it answers and of its
own. -/
structure Signed (E : Env) (x : Transcript) (p : Bytes) (c : Conn) (older : List Event) :
    Prop where
  reply : p = replyBytes x.ks x.qs (E.sign c.hostSeed c.hostPub (E.sha256 x.preimage).toList)
  sized : x.Sized
  serverVersion : x.serverVersion = ascii sshServerVersion
  clientKexInit : (tally older).clientInits[(tally older).replies]? = some x.clientKexInit
  serverKexInit : (tally older).serverInits[(tally older).replies]? = some x.serverKexInit
  ks : x.ks = hostKeyBlob c.hostPub
  init : ∃ q packet mac c₀ c₁ log,
    older = .exchange x c₀ :: .dispatch q packet mac c₁ :: log ∧ msgOf q = msgKexdhInit ∧
      CarriesKey q x.qc
  agreed : Agreed E x.qc x.qs x.k

def ReplyFits (E : Env) (e : Event) (older : List Event) : Prop :=
  ∀ p c, e = .sent p c → msgOf p = msgKexdhReply → ∃ x, Signed E x p c older

/-- What is recorded of exchanges. -/
structure HashRecord (E : Env) (s : Session) : Prop where
  past : Along (ReplyFits E) s.log
  hashed : ∀ x c, .exchange x c ∈ s.log → x.clientVersion = s.conn.clientVersion ∧
    isSshLine x.clientVersion = true ∧ s.conn.state ≠ .version
  versions : ∀ line, .versionSent line ∈ s.log → line = ascii sshServerVersion ++ [cr, lf]

theorem HashRecord.hashless (hs : HashRecord E s) (h : Hashless s t) : HashRecord E t := by
  obtain ⟨es, hes, hevents⟩ := h.log
  refine ⟨?_, fun x c hmem => ?_, fun line hmem => ?_⟩
  · rw [hes]
    refine hs.past.append fun e newer older heq p c hsent hmsg => ?_
    have he := hevents e (heq ▸ List.mem_append_right _ List.mem_cons_self)
    rw [hsent] at he
    exact absurd hmsg he
  · rw [hes] at hmem
    obtain ⟨hversion, hssh, hstate⟩ :=
      hs.hashed x c ((List.mem_append.mp hmem).resolve_left fun he => hevents _ he)
    exact ⟨hversion.trans h.clientVersion.symm, hssh, fun ht => hstate (h.state.version ht)⟩
  · rw [hes] at hmem
    exact (List.mem_append.mp hmem).elim (hevents _) (hs.versions line)

/-- What holds of every state: what is recorded, and the phase the connection is in. -/
structure TranscriptKept (E : Env) (s : Session) : Prop extends HashRecord E s where
  line : s.conn.state ≠ .closed → s.conn.state ≠ .version →
    isSshLine s.conn.clientVersion = true ∧ s.conn.clientVersion.length < 2 ^ 32
  start : s.conn.state = .version → s.conn.kex ≠ .waitDh
  phase : s.conn.state ≠ .closed → KexPhase s.conn (tally s.log)

theorem transcriptKept_new (hostSeed hostPub : Bytes) :
    TranscriptKept E ⟨newConn hostSeed hostPub, []⟩ where
  past := trivial
  hashed := by simp
  versions := by simp
  line := fun _ h => absurd rfl h
  start := fun _ => by simp [newConn]
  phase := fun _ => .between (by simp [newConn]) rfl rfl rfl

/-- The state behind such a step, after the version exchange. -/
theorem TranscriptKept.hashless (hs : TranscriptKept E s) (h : Hashless s t)
    (hversion : s.conn.state ≠ .version)
    (hphase : t.conn.state ≠ .closed → KexPhase t.conn (tally t.log)) : TranscriptKept E t where
  toHashRecord := hs.toHashRecord.hashless h
  line := by
    intro hopen hne
    rw [h.clientVersion]
    exact hs.line (h.state.ne_closed hopen) hversion
  start := fun ht => absurd (h.state.version ht) hversion
  phase := hphase

theorem Aside.transcriptKept (h : Aside s t) (hs : TranscriptKept E s) : TranscriptKept E t := by
  have hphase : t.conn.state ≠ .closed → KexPhase t.conn (tally t.log) := fun hopen => by
    obtain ⟨ignore, hkx⟩ := h.kx
    rw [h.tally_eq]
    apply (hs.phase (h.state.ne_closed hopen)).congr h.kex <;> rw [hkx]
  by_cases hversion : s.conn.state = .version
  · refine ⟨hs.toHashRecord.hashless h.hashless, fun hopen hne => ?_, fun _ => ?_, hphase⟩
    · exact absurd ((h.state.resolve_left hopen).2.mpr hversion) hne
    · rw [h.kex]
      exact hs.start hversion
  · exact hs.hashless h.hashless hversion hphase

/-! ## The exchange -/

theorem tally_exchanged : tally (s.exchanged E x).log = tally s.log :=
  tally_cons ⟨rfl, rfl, rfl⟩

/-- The values that are hashed are those of one exchange. -/
theorem Exchanges.signed (hE : E.Reliable) (hx : Exchanges E s q x) (hs : TranscriptKept E s) :
    Signed E x (x.reply E (s.exchanged E x).conn) (s.exchanged E x).conn
      (s.exchanged E x).log := by
  obtain ⟨mine, hqs, -, hk⟩ := hx.agreed
  obtain ⟨-, -, hqc⟩ := hx.qc
  have hks : x.ks.length ≤ 51 := hx.ks ▸ length_hostKeyBlob_le _
  have hqslen : x.qs.length = 32 := by rw [hqs, List.Vector.toList_length]
  obtain ⟨-, hversion⟩ := hs.line hx.ne_closed hx.ne_version
  cases hs.phase hx.ne_closed with
  | between hkex | announced hkex => exact absurd hx.kex hkex
  | negotiated _ _ hclient hserver =>
      rw [hx.clientKexInit] at hclient
      rw [hx.serverKexInit] at hserver
      obtain ⟨hic, hiclen⟩ := hclient.getElem?
      obtain ⟨his, hislen⟩ := hserver.getElem?
      have hshort : sshMaxPacket < 2 ^ 32 := by decide
      refine ⟨Transcript.reply_eq hE hx.serverVersion hks hqslen hk, ?_, hx.serverVersion, ?_, ?_,
        hx.ks, ?_, hx.agreed⟩
      · refine ⟨hx.clientVersion ▸ hversion, ?_, by omega, by omega, by omega, by omega, by omega,
          hk⟩
        rw [hx.serverVersion]
        decide
      · rw [tally_exchanged]
        exact hic
      · rw [tally_exchanged]
        exact his
      · obtain ⟨packet, mac, c₁, log, hlog, -⟩ := hx.handling
        exact ⟨q, packet, mac, s.conn, c₁, log, by rw [Session.exchanged, hlog], hx.msg, hx.qc⟩

theorem Exchanges.hashRecord (hx : Exchanges E s q x) (hs : TranscriptKept E s) :
    HashRecord E (s.exchanged E x) where
  past := by
    refine ⟨fun _ _ heq => ?_, hs.past⟩
    cases heq
  hashed := by
    intro y c hmem
    rcases List.mem_cons.mp hmem with heq | hmem
    · cases heq
      rw [hx.clientVersion]
      exact ⟨rfl, (hs.line hx.ne_closed hx.ne_version).1, hx.ne_version⟩
    · exact hs.hashed y c hmem
  versions := by
    intro line hmem
    exact hs.versions line ((List.mem_cons.mp hmem).resolve_left nofun)

theorem Exchanges.replied (hE : E.Reliable) (hx : Exchanges E s q x) (hs : TranscriptKept E s)
    (h : Emits (x.reply E (s.exchanged E x).conn) (s.exchanged E x) 0 u) : HashRecord E u := by
  obtain ⟨hpast, hhashed, hversions⟩ := hx.hashRecord hs
  have hlog := h.log_eq.elim And.right fun h => absurd rfl h.1
  refine ⟨?_, fun y c hmem => ?_, fun line hmem => ?_⟩
  · rw [hlog]
    refine ⟨fun p c heq _ => ⟨x, ?_⟩, hpast⟩
    cases heq
    exact hx.signed hE hs
  · rw [hlog] at hmem
    obtain ⟨hversion, hssh, hstate⟩ := hhashed y c ((List.mem_cons.mp hmem).resolve_left nofun)
    have hstage : SameStage (s.exchanged E x).conn u.conn := .of_state h.frame.state
    exact ⟨hversion.trans h.frame.clientVersion.symm, hssh, fun hu => hstate (hstage.version hu)⟩
  · rw [hlog] at hmem
    exact hversions line ((List.mem_cons.mp hmem).resolve_left nofun)

theorem Emits.hashless (h : Emits newkeysPayload s r t) : Hashless s t :=
  h.sends.hashless (by decide)

/-- A reply that is lost is none. -/
theorem Emits.hashless_of_lost (h : Emits p s r t) (hr : r ≠ 0) : Hashless s t := by
  have hlog := h.log_eq.elim (fun h => absurd h.1 hr) And.right
  exact ⟨.of_state h.frame.state, h.frame.clientVersion, [_], hlog, by simp [Event.IsHashless]⟩

theorem ExchangeEnds.transcriptKept {sessionId : Bytes} (hE : E.Reliable)
    (hx : Exchanges E s q x) (h : ExchangeEnds E x sessionId (s.exchanged E x) t)
    (hs : TranscriptKept E s) : TranscriptKept E t := by
  -- of a connection that is closed only the record of the hashes is left to show
  have hclosed : ∀ {u}, HashRecord E u → u.conn.state = .closed → TranscriptKept E u := by
    intro u hrec hclosed
    refine ⟨hrec, fun h => absurd hclosed h, fun h => ?_, fun h => absurd hclosed h⟩
    exact absurd (hclosed.symm.trans h) (by decide)
  have hrec := hx.hashRecord hs
  cases h with
  | unsigned hend => exact hclosed (hrec.hashless hend.hashless) hend.closed
  | replyLost hr hreply hcause =>
      exact hclosed (hrec.hashless (hreply.hashless_of_lost hr)) (hcause hE)
  | newKeysLost _ hreply hkeys hcause =>
      exact hclosed ((hx.replied hE hs hreply).hashless hkeys.hashless) (hcause hE)
  | newKeysFailed hreply hkeys _ hend =>
      have hrec := (hx.replied hE hs hreply).hashless (hkeys.hashless.trans hend.hashless)
      exact hclosed hrec hend.closed
  | @switched u v hreply hkeys =>
      have hframe := hreply.frame.trans hkeys.frame
      have hrec := (hx.replied hE hs hreply).hashless hkeys.hashless
      have hstage : SameStage s.conn v.conn := .of_state hframe.state
      have hstate : v.conn.state ≠ .version := fun hv => hx.ne_version (hstage.version hv)
      refine ⟨hrec.hashless (.of_log_eq rfl (.inl rfl) rfl), fun _ _ => ?_,
        fun h => absurd h hstate, fun _ => ?_⟩
      · rw [show (v.conn.switched _).clientVersion = s.conn.clientVersion from
          hframe.clientVersion]
        exact hs.line hx.ne_closed hx.ne_version
      · have htally : tally v.log = { tally s.log with replies := (tally s.log).replies + 1 } := by
          have hlog := hreply.log_eq.elim And.right fun h => absurd rfl h.1
          rw [hkeys.sends.tally_eq (by decide) (by decide), hlog, tally_reply (x.msgOf_reply E _),
            tally_exchanged]
        rw [htally]
        -- the exchange was at its second half, and the next one has not begun
        cases hs.phase hx.ne_closed with
        | between hkex | announced hkex => exact absurd hx.kex hkex
        | negotiated _ hnew hclient hserver =>
            refine .between (by simp [Conn.switched]) ?_ hclient.length hserver.length
            rw [show (v.conn.switched _).kx = (s.exchanged E x).conn.kx from hframe.kx]
            exact hnew


/-! ## Every run -/

theorem Step.transcriptKept (hE : E.Reliable) (h : Step E s t) (hs : TranscriptKept E s) :
    TranscriptKept E t := by
  cases h.kexStep with
  | aside h => exact h.transcriptKept hs
  | acceptVersion line hstate hfits hssh =>
      have hopen : s.conn.state ≠ .closed := by
        rw [hstate]
        decide
      obtain ⟨hclient, hserver⟩ := (hs.phase hopen).awaiting (hs.start hstate)
      refine ⟨⟨hs.past, fun x c hmem => ?_, hs.versions⟩, fun _ _ => ⟨hssh, ?_⟩, fun h => ?_,
        fun _ => ?_⟩
      · exact absurd hstate (hs.hashed x c hmem).2.2
      · have hsize : clientVersionSize < 2 ^ 32 := by decide
        exact Nat.lt_trans hfits hsize
      · cases h
      · exact .between_or_announced (by simp) hclient ⟨hserver.new, hserver.announced⟩
  | firstKexInit hstate hkex hnew h =>
      refine hs.hashless h.hashless (by rw [hstate]; decide) fun _ => ?_
      have hne : s.conn.kex ≠ .waitDh := by
        rw [hkex]
        decide
      obtain ⟨hclient, hserver⟩ := (hs.phase (by rw [hstate]; decide)).awaiting hne
      obtain ⟨inits, htally, hnewest⟩ := h.tally_eq hserver
      rw [htally]
      refine .announced ?_ h.kexInitSent hclient hnewest
      rw [h.kex]
      exact hne
  | firstKexInitFailed _ _ h =>
      have hclosed := h.closed hE
      exact ⟨hs.toHashRecord.hashless h.hashless, fun h => absurd hclosed h,
        fun h => absurd (hclosed.symm.trans h) (by decide), fun h => absurd hclosed h⟩
  | kexInit harrives hmsg hend =>
      exact hs.hashless (Hashless.dispatched.trans hend.hashless) harrives.ne_version
        (hend.phase hE hmsg harrives.fits (hs.phase harrives.ne_closed))
  | exchange x hx hend => exact hend.transcriptKept hE hx hs
  | newKeys harrives hmsg hend =>
      exact hs.hashless (Hashless.dispatched.trans hend.hashless) harrives.ne_version
        (hend.phase hmsg (hs.phase harrives.ne_closed))

/-- **Exchange hash.**  In every run on a platform where no allocation and no crypto call
fails, the `i`-th reply signs the SHA-256 hash of the client's version line, the line that
`SshAccept` sent, the `i`-th `KEXINIT` of each side, the host key and the public key that
the reply carries, the public key in the `KEXDH_INIT` it answers and the shared secret; and
what is hashed determines all eight. -/
theorem exchange_transcript {connSize : ℕ} {hostSeed : Bytes} {calls : List Call}
    {input : List ReadResult} {s₀ s : Server} (hE : E.Reliable)
    (hnew : sshNew E connSize hostSeed calls input = some s₀) (h : Runs E s₀ s)
    {newer older : List Event} (hlog : s.link.log = newer ++ .sent p c :: older)
    (hmsg : msgOf p = msgKexdhReply) :
    ∃ x, Signed E x p c older ∧ IsVersionLine x.clientVersion (scriptBytes input) ∧
      (∀ line, .versionSent line ∈ s.link.log → line = x.serverVersion ++ [cr, lf]) ∧
      ∀ y : Transcript, y.Sized → y.preimage = x.preimage → y = x := by
  have hreach : Reachable E s := ⟨_, _, _, _, s₀, hnew, h⟩
  have hkept : TranscriptKept E s.link.toSession :=
    hreach.invariant transcriptKept_new fun _ _ => Step.transcriptKept hE
  obtain ⟨x, hx⟩ := along_iff.mp hkept.past newer _ older hlog p c rfl hmsg
  refine ⟨x, hx, ?_, fun line hmem => ?_, fun y hy heq => Transcript.preimage_inj hy hx.sized heq⟩
  · obtain ⟨q, packet, mac, c₀, c₁, log, holder, -⟩ := hx.init
    have hmem : .exchange x c₀ ∈ s.link.log := by
      rw [hlog, holder]
      simp
    obtain ⟨hversion, hssh, -⟩ := hkept.hashed x c₀ hmem
    have hline : s.link.conn.clientVersion ≠ [] := by
      intro hnil
      rw [hversion, hnil] at hssh
      exact absurd hssh (by decide)
    rw [hversion]
    exact (h.clientVersion hnew).resolve_left hline
  · rw [hx.serverVersion]
    exact hkept.versions line hmem

/-- The reply to the first exchange of a client. -/
theorem exchange_transcript_first : ∃ s newer older p c x,
    scenario (plainEnv fun _ _ => true) [.accept 1] [.data clientKex] = some s ∧
      s.link.log = newer ++ .sent p c :: older ∧ msgOf p = msgKexdhReply ∧
      Signed (plainEnv fun _ _ => true) x p c older ∧
      IsVersionLine x.clientVersion (scriptBytes [.data clientKex]) := by
  obtain ⟨s, hrun, hsent⟩ : ∃ s,
      scenario (plainEnv fun _ _ => true) [.accept 1] [.data clientKex] = some s ∧
        s.link.log.any (Event.isSent msgKexdhReply) = true :=
    Option.any_eq_true _ _ |>.mp (by decide +kernel)
  obtain ⟨e, hmem, he⟩ := List.any_eq_true.mp hsent
  obtain ⟨p, c, rfl, hmsg⟩ := Event.isSent_iff.mp he
  obtain ⟨newer, older, hlog⟩ := List.append_of_mem hmem
  obtain ⟨s₀, hnew, hruns⟩ := scenario_runs hrun
  obtain ⟨x, hx, hline, -⟩ :=
    exchange_transcript (plainEnv_reliable _) hnew hruns hlog hmsg
  exact ⟨s, newer, older, p, c, x, hrun, hlog, hmsg, hx, hline⟩

end EfiSshServer
