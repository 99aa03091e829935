import EfiSshServer.Scenario

/-!
# Silence during the key exchange

Between the server's `KEXINIT` and the `NEWKEYS` that answers it only transport
messages may be sent.  `CanSendNow` sees to that for data and window adjusts.  The
answers of `HandlePacket` and the close handshake of `SshClose` do not ask it: a
client that sends a packet the server answers at this moment gets its answer, and
the program that closes a channel at this moment has the handshake sent.
`QuietClient` excludes exactly these, and then the exchange is silent.
-/

namespace EfiSshServer

variable {E : Env} {p q : Bytes} {r : Int} {s t u : Session} {log : List Event}

/-! ## What the log says -/

/-- A `KEXINIT` was sent and the matching `NEWKEYS` was not yet. -/
def inKexWindow : List Event → Bool
  | [] => false
  | .sent p _ :: log =>
      if msgOf p = msgKexinit then true
      else if msgOf p = msgNewkeys then false
      else inKexWindow log
  | _ :: log => inKexWindow log

/-- The messages that are allowed during a key exchange. -/
def allowedInKex (m : UInt8) : Bool :=
  (1 ≤ m && m ≤ 4) || (7 ≤ m && m ≤ 19) || m = 21 || (30 ≤ m && m ≤ 49)

/-- Every packet sent during a key exchange was allowed there. -/
def KexSilent : List Event → Prop
  | [] => True
  | .sent p _ :: log => (inKexWindow log = true → allowedInKex (msgOf p) = true) ∧ KexSilent log
  | _ :: log => KexSilent log

/-- A packet that `HandlePacket` answers with a message that is not allowed during a
key exchange; what becomes of a password, the callback decides. -/
def answered (c : Conn) (q : Bytes) : Bool :=
  (msgOf q = msgServiceRequest && c.state ≠ .kex && requestsUserauth q) ||
  (msgOf q = msgUserauthRequest && c.state = .auth && requestsConnection q &&
    !offersPassword q) ||
  (msgOf q = msgGlobalRequest && globalWantsReply q) ||
  (msgOf q = msgChannelOpen && c.state = .conn && opensChannel q) ||
  (msgOf q = msgChannelRequest && c.state = .conn && c.chan.chanOpen && requestWantsReply q) ||
  (msgOf q = msgChannelClose && c.chan.chanOpen && !c.chan.closeSent)

/-- During a key exchange the client sent nothing that is answered, no password but one that
was wrong once too often, and no open channel was closed. -/
def QuietClient : List Event → Prop
  | [] => True
  | .dispatch q _ _ c :: log => (inKexWindow log = true → answered c q = false) ∧ QuietClient log
  | .auth _ _ ok c :: log =>
      (inKexWindow log = true → ok = false ∧ sshMaxAuthTries ≤ c.login.authTries + 1) ∧
        QuietClient log
  | .closing _ :: log => inKexWindow log = false ∧ QuietClient log
  | _ :: log => QuietClient log

instance decidableKexSilent : DecidablePred KexSilent
  | [] => .isTrue trivial
  | .sent p _ :: log =>
      have := decidableKexSilent log
      inferInstanceAs (Decidable ((inKexWindow log = true → allowedInKex (msgOf p) = true) ∧
        KexSilent log))
  | .sendFailed .. :: log | .dispatch .. :: log | .auth .. :: log | .opened .. :: log
  | .adjusted .. :: log | .received .. :: log | .popped .. :: log | .readEnd .. :: log
  | .accepted :: log | .closing .. :: log | .kexInitFailed :: log
  | .versionSent _ :: log | .exchange .. :: log => decidableKexSilent log

instance decidableQuietClient : DecidablePred QuietClient
  | [] => .isTrue trivial
  | .dispatch q _ _ c :: log =>
      have := decidableQuietClient log
      inferInstanceAs (Decidable ((inKexWindow log = true → answered c q = false) ∧
        QuietClient log))
  | .auth _ _ ok c :: log =>
      have := decidableQuietClient log
      inferInstanceAs (Decidable ((inKexWindow log = true →
        ok = false ∧ sshMaxAuthTries ≤ c.login.authTries + 1) ∧ QuietClient log))
  | .closing _ :: log =>
      have := decidableQuietClient log
      inferInstanceAs (Decidable (inKexWindow log = false ∧ QuietClient log))
  | .sent .. :: log | .sendFailed .. :: log | .opened .. :: log
  | .adjusted .. :: log | .received .. :: log | .popped .. :: log | .readEnd .. :: log
  | .accepted :: log | .kexInitFailed :: log
  | .versionSent _ :: log | .exchange .. :: log => decidableQuietClient log

theorem QuietClient.of_append {es : List Event} (h : QuietClient (es ++ log)) :
    QuietClient log := by
  induction es with
  | nil => exact h
  | cons e es ih =>
      refine ih ?_
      cases e with
      | dispatch | auth | closing => exact h.2
      | _ => exact h

theorem inKexWindow_sent {c : Conn} (hinit : msgOf p ≠ msgKexinit) (hkeys : msgOf p ≠ msgNewkeys) :
    inKexWindow (.sent p c :: log) = inKexWindow log := by
  rw [inKexWindow, if_neg hinit, if_neg hkeys]

/-- Sends that neither begin nor end a key exchange. -/
theorem Sends.inKexWindow {P : UInt8 → Prop} (h : Sends P s t)
    (hP : ∀ m, P m → m ≠ msgKexinit ∧ m ≠ msgNewkeys) :
    inKexWindow t.log = EfiSshServer.inKexWindow s.log := by
  obtain ⟨es, hes, hsend⟩ := h.log
  rw [hes]
  clear hes
  induction es with
  | nil => rfl
  | cons e es ih =>
      have hes := ih fun e he => hsend e (List.mem_cons_of_mem _ he)
      obtain ⟨hside, hmsg⟩ := hsend e List.mem_cons_self
      cases e with
      | sent p c =>
          have hp := hP _ (hmsg p c rfl).1
          exact (inKexWindow_sent hp.1 hp.2).trans hes
      | sendFailed | kexInitFailed | closing => exact hes
      | _ => cases hside

/-- Sends in silence: outside a key exchange, or of allowed messages only. -/
theorem Sends.kexSilent {P : UInt8 → Prop} (h : Sends P s t)
    (hP : ∀ m, P m → m ≠ msgKexinit ∧ m ≠ msgNewkeys)
    (hquiet : EfiSshServer.inKexWindow s.log = true → ∀ m, P m → allowedInKex m = true)
    (hs : KexSilent s.log) : KexSilent t.log := by
  obtain ⟨es, hes, hsend⟩ := h.log
  have hall : ∀ es', (∀ e ∈ es', e.sendsIn P s.conn) →
      KexSilent (es' ++ s.log) ∧
        EfiSshServer.inKexWindow (es' ++ s.log) = EfiSshServer.inKexWindow s.log := by
    intro es' hes'
    induction es' with
    | nil => exact ⟨hs, rfl⟩
    | cons e es' ih =>
        obtain ⟨hsilent, hwindow⟩ := ih fun e he => hes' e (List.mem_cons_of_mem _ he)
        obtain ⟨hside, hmsg⟩ := hes' e List.mem_cons_self
        cases e with
        | sent p c =>
            have hp := (hmsg p c rfl).1
            refine ⟨⟨fun hw => hquiet (hwindow ▸ hw) _ hp, hsilent⟩, ?_⟩
            exact (inKexWindow_sent (hP _ hp).1 (hP _ hp).2).trans hwindow
        | sendFailed | kexInitFailed | closing => exact ⟨hsilent, hwindow⟩
        | _ => cases hside
  rw [hes]
  exact (hall es hsend).1

/-! ## The invariant -/

structure KexQuiet (state : SshState) (kex : KexState) (kexInitSent : Bool) (log : List Event) :
    Prop where
  version : state = .version → inKexWindow log = false
  window : inKexWindow log = true → state ≠ .closed →
    kex = .waitDh ∨ (kex = .waitKexinit ∧ kexInitSent = true ∧ state = .kex)
  silent : QuietClient log → KexSilent log

abbrev Session.kexQuiet (s : Session) : Prop :=
  KexQuiet s.conn.state s.conn.kex s.conn.kx.kexInitSent s.log

/-- Events that say nothing of a key exchange, and a state that stays in it. -/
theorem KexQuiet.congr {state state' : SshState} {kex : KexState} {sent : Bool}
    {log' : List Event} (h : KexQuiet state kex sent log)
    (hversion : state' = .version → state = .version)
    (hopen : state' ≠ .closed → state ≠ .closed ∧ (state = .kex → state' = .kex))
    (hwindow : inKexWindow log' = inKexWindow log) (hquiet : QuietClient log' → QuietClient log)
    (hsilent : KexSilent log' = KexSilent log) : KexQuiet state' kex sent log' where
  version hstate := by rw [hwindow]; exact h.version (hversion hstate)
  window hw hclosed := by
    rw [hwindow] at hw
    obtain ⟨hclosed, hkex⟩ := hopen hclosed
    exact (h.window hw hclosed).imp_right fun h => ⟨h.1, h.2.1, hkex h.2.2⟩
  silent hclient := by rw [hsilent]; exact h.silent (hquiet hclient)

/-- The log alone grows. -/
theorem KexQuiet.log_congr {state : SshState} {kex : KexState} {sent : Bool} {log' : List Event}
    (h : KexQuiet state kex sent log) (hwindow : inKexWindow log' = inKexWindow log)
    (hquiet : QuietClient log' → QuietClient log) (hsilent : KexSilent log' = KexSilent log) :
    KexQuiet state kex sent log' :=
  h.congr id (fun hopen => ⟨hopen, id⟩) hwindow hquiet hsilent

theorem KexQuiet.close {state : SshState} {kex : KexState} {sent : Bool}
    (h : KexQuiet state kex sent log) : KexQuiet .closed kex sent log :=
  h.congr nofun (fun hclosed => absurd rfl hclosed) rfl id rfl

/-- A closed connection has only its silence to keep. -/
theorem KexQuiet.of_closed {kex : KexState} {sent : Bool} (h : QuietClient log → KexSilent log) :
    KexQuiet .closed kex sent log :=
  ⟨nofun, fun _ hclosed => absurd rfl hclosed, h⟩

theorem Sends.quietClient {P : UInt8 → Prop} (h : Sends P s t) (hclient : QuietClient t.log) :
    QuietClient s.log := by
  obtain ⟨es, hes, -⟩ := h.log
  rw [hes] at hclient
  exact hclient.of_append

theorem KexQuiet.sends {P : UInt8 → Prop} (hs : s.kexQuiet) (h : Sends P s t)
    (hP : ∀ m, P m → m ≠ msgKexinit ∧ m ≠ msgNewkeys)
    (hquiet : QuietClient t.log → inKexWindow s.log = true → ∀ m, P m → allowedInKex m = true) :
    t.kexQuiet := by
  unfold Session.kexQuiet
  rw [h.frame.kex, h.frame.kx]
  have hsilent : QuietClient t.log → KexSilent t.log := fun hclient =>
    h.kexSilent hP (hquiet hclient) (hs.silent (h.quietClient hclient))
  rcases h.frame.state with hstate | hstate
  · rw [hstate]
    refine ⟨?_, ?_, hsilent⟩
    · rw [h.inKexWindow hP]
      exact hs.version
    · rw [h.inKexWindow hP]
      exact hs.window
  · rw [hstate]
    exact .of_closed hsilent

/-- Sends of messages that are always allowed. -/
theorem KexQuiet.sends_allowed {P : UInt8 → Prop} (hs : s.kexQuiet) (h : Sends P s t)
    (hP : ∀ m, P m → m ≠ msgNewkeys ∧ allowedInKex m = true) : t.kexQuiet := by
  refine hs.sends h (fun m hm => ⟨?_, (hP m hm).1⟩) fun _ _ m hm => (hP m hm).2
  rintro rfl
  exact absurd (hP _ hm).2 (by decide)

/-- Sends outside a key exchange. -/
theorem KexQuiet.sends_outside {P : UInt8 → Prop} (hs : s.kexQuiet) (h : Sends P s t)
    (hP : ∀ m, P m → m ≠ msgKexinit ∧ m ≠ msgNewkeys)
    (hout : QuietClient s.log → inKexWindow s.log = false) : t.kexQuiet := by
  refine hs.sends h hP fun hclient hwindow => ?_
  rw [hout (h.quietClient hclient)] at hwindow
  cases hwindow

theorem KexQuiet.emits_allowed (hs : s.kexQuiet) (h : Emits p s r t)
    (hmsg : msgOf p ≠ msgNewkeys ∧ allowedInKex (msgOf p) = true) : t.kexQuiet :=
  hs.sends_allowed h.sends fun _ hm => hm ▸ hmsg

theorem KexQuiet.emits_outside (hs : s.kexQuiet) (h : Emits p s r t)
    (hmsg : msgOf p ≠ msgKexinit ∧ msgOf p ≠ msgNewkeys)
    (hout : QuietClient s.log → inKexWindow s.log = false) : t.kexQuiet :=
  hs.sends_outside h.sends (fun _ hm => hm ▸ hmsg) hout

theorem KexQuiet.farewell (hs : s.kexQuiet) (h : Farewell s t) : t.kexQuiet :=
  hs.sends_allowed h.sends (by rintro _ rfl; decide)

/-- A packet that is not sent changes nothing but the state. -/
theorem KexQuiet.lost (hs : s.kexQuiet) (h : Emits p s r t) (hr : r ≠ 0) : t.kexQuiet := by
  have hlog := (h.log_eq.resolve_left fun hzero => hr hzero.1).2
  unfold Session.kexQuiet
  rw [h.frame.kex, h.frame.kx, hlog]
  have hlog : KexQuiet s.conn.state s.conn.kex s.conn.kx.kexInitSent
      (.sendFailed p t.conn :: s.log) :=
    hs.log_congr rfl id rfl
  rcases h.frame.state with hstate | hstate <;> rw [hstate]
  · exact hlog
  · exact hlog.close

/-- `NEWKEYS` ends the exchange. -/
theorem KexQuiet.newKeys (hs : s.kexQuiet) (h : Emits newkeysPayload s 0 t) :
    inKexWindow t.log = false ∧ (QuietClient t.log → KexSilent t.log) := by
  have hlog := (h.log_eq.resolve_right fun hzero => absurd rfl hzero.1).2
  rw [hlog]
  refine ⟨?_, fun hclient => ⟨fun _ => ?_, hs.silent hclient⟩⟩
  · rw [inKexWindow, msgOf_newkeysPayload]
    rfl
  · rw [msgOf_newkeysPayload]
    decide

/-- Away from an exchange, and when a new one may begin, none is under way. -/
theorem KexQuiet.outside {state : SshState} {kex : KexState} {sent : Bool}
    (h : KexQuiet state kex sent log) (hopen : state ≠ .closed) (hkex : kex ≠ .waitDh)
    (hnew : kex = .waitKexinit → sent = true → state ≠ .kex) : inKexWindow log = false := by
  by_contra hwindow
  rw [Bool.not_eq_false] at hwindow
  rcases h.window hwindow hopen with hdh | ⟨hwait, hsent, hstate⟩
  · exact hkex hdh
  · exact hnew hwait hsent hstate

/-- `CanSendNow` holds the server back during a key exchange. -/
theorem KexQuiet.outside_of_canSendNow (hs : s.kexQuiet) (hsend : canSendNow s.conn = true) :
    inKexWindow s.log = false := by
  simp only [canSendNow, Bool.and_eq_true, Bool.or_eq_true, decide_eq_true_eq] at hsend
  obtain ⟨⟨⟨hstate, -⟩, -⟩, hkex⟩ := hsend
  refine hs.outside ?_ ?_ fun _ _ => ?_
  · rw [hstate]
    decide
  · rcases hkex with hkex | hkex <;> rw [hkex] <;> decide
  · rw [hstate]
    decide

/-! ## The packets that are answered -/

theorem replyMessages_ne :
    ∀ m ∈ replyMessages, m ≠ msgKexinit ∧ m ≠ msgNewkeys := by
  decide +kernel

theorem Replies.answered {c : Conn} (h : Replies c q p) :
    msgOf p = msgUnimplemented ∨ answered c q = true := by
  cases h with
  | unimplemented seq => exact .inl (msgOf_unimplementedPayload seq)
  | serviceAccept hmsg hstate hform => right; simp [EfiSshServer.answered, hmsg, hstate, hform]
  | authFailure hmsg hstate hform hpass =>
      right
      simp [EfiSshServer.answered, hmsg, hstate, hform, hpass]
  | requestFailure hmsg hwant => right; simp [EfiSshServer.answered, hmsg, hwant]
  | openFailure hmsg hstate hform => right; simp [EfiSshServer.answered, hmsg, hstate, hform]
  | channelReply hmsg hwant hstate hopen =>
      right
      simp [EfiSshServer.answered, hmsg, hwant, hstate, hopen]

/-- A packet that is answered came outside a key exchange. -/
theorem QuietClient.outside (hclient : QuietClient s.log) (hq : Handling s q)
    (hanswered : answered s.conn q = true) : inKexWindow s.log = false := by
  obtain ⟨packet, mac, c, log, hlog, -, hstate, hopen, hclose⟩ := hq
  rw [hlog] at hclient ⊢
  by_contra hwindow
  rw [Bool.not_eq_false] at hwindow
  have hno := hclient.1 hwindow
  rw [answered, hstate, hopen, hclose] at hno
  rw [answered, hno] at hanswered
  cases hanswered

/-- A password that ends with an answer came outside a key exchange. -/
theorem QuietClient.verdict {user pass : Bytes} {ok : Bool} {c : Conn}
    (hclient : QuietClient (.auth user pass ok c :: log))
    (hanswered : ok = true ∨ c.login.authTries + 1 < sshMaxAuthTries) :
    inKexWindow log = false := by
  by_contra hwindow
  rw [Bool.not_eq_false] at hwindow
  obtain ⟨hok, htries⟩ := hclient.1 hwindow
  rcases hanswered with htrue | hfew
  · exact absurd (hok.symm.trans htrue) (by decide)
  · exact absurd htries (Nat.not_le.mpr hfew)

/-- The close handshake of a program that closes outside a key exchange. -/
theorem KexQuiet.closeHandshake {exitStatus : UInt32} (hs : s.kexQuiet)
    (h : CloseHandshake exitStatus s t) : t.kexQuiet := by
  have hlog : ∃ es, t.log = es ++ .closing s.conn :: s.log := by
    obtain ⟨hexit, heof, hclose⟩ := h
    obtain ⟨es₁, hes₁, -⟩ := hexit.sends.log
    obtain ⟨es₂, hes₂, -⟩ := heof.sends.log
    obtain ⟨es₃, hes₃, -⟩ := hclose.sends.log
    exact ⟨es₃ ++ (es₂ ++ es₁), by rw [hes₃, hes₂, hes₁]; simp only [List.append_assoc]⟩
  obtain ⟨es, hes⟩ := hlog
  obtain ⟨u, hsends, rfl⟩ := h.sends
  have hu : u.kexQuiet := by
    refine hs.sends hsends ?_ fun hclient hwindow => ?_
    · exact (show ∀ m ∈ [msgChannelRequest, msgChannelEof, msgChannelClose],
        m ≠ msgKexinit ∧ m ≠ msgNewkeys by decide +kernel)
    · have hclient : QuietClient (es ++ .closing s.conn :: s.log) := hes ▸ hclient
      rw [hclient.of_append.1] at hwindow
      cases hwindow
  exact hu

/-! ## Every step -/

/-- The server's `KEXINIT` begins an exchange when none is under way. -/
theorem KexInitDone.silent (h : KexInitDone s t) (hs : s.kexQuiet)
    (hkex : s.conn.awaitsKexInit) : QuietClient t.log → KexSilent t.log := by
  cases h with
  | earlier => exact hs.silent
  | sent hnew _ hsent =>
      intro hclient
      rcases hsent with ⟨pos, seq, hopen⟩
      have hout := hs.outside hopen hkex.ne_waitDh fun _ hsent => by
        rw [hnew] at hsent
        cases hsent
      refine ⟨fun hwindow => ?_, hs.silent hclient⟩
      rw [hout] at hwindow
      cases hwindow

/-- A `KEXINIT` that is not sent begins nothing. -/
theorem KexInitFails.kexQuiet (h : KexInitFails E s t) (hs : s.kexQuiet)
    (hkex : s.conn.awaitsKexInit) (hnew : s.conn.kx.kexInitSent = false) : t.kexQuiet := by
  cases h with
  | noCookie | noMemory => exact hs.log_congr rfl id rfl
  | lost _ hr hlost =>
      refine KexQuiet.lost ?_ hlost hr
      refine ⟨hs.version, fun hwindow hopen => ?_, hs.silent⟩
      rw [hs.outside hopen hkex.ne_waitDh fun _ hsent => by
        rw [hnew] at hsent; cases hsent] at hwindow
      cases hwindow

theorem HandlesKexInit.kexQuiet (h : HandlesKexInit E q s t) (hs : s.kexQuiet)
    (hstate : s.conn.state ≠ .version) : t.kexQuiet := by
  cases h with
  | unexpected _ hend => exact hs.farewell hend
  | noMemory _ hend =>
      refine KexQuiet.farewell ?_ hend
      exact hs
  | failed hkex hnew hfail => exact hfail.kexQuiet hs hkex hnew
  | negotiated k hkex hdone =>
      exact ⟨fun h => absurd (hdone.state_eq ▸ h) hstate, fun _ _ => .inl rfl,
        hdone.silent hs hkex⟩
  | notNegotiated k hkex hdone _ _ hend =>
      unfold Session.kexQuiet
      rw [hend.closed]
      refine .of_closed fun hclient => ?_
      obtain ⟨es, hes, -⟩ := hend.sends.log
      rw [hes] at hclient
      refine hend.sends.kexSilent (by rintro _ rfl; decide) (fun _ => by rintro _ rfl; decide) ?_
      exact hdone.silent hs hkex hclient.of_append

theorem ExchangeEnds.kexQuiet {x : Transcript} {sessionId : Bytes}
    (h : ExchangeEnds E x sessionId s t) (hs : s.kexQuiet) : t.kexQuiet := by
  have hreplied : ∀ {r u}, Emits (x.reply E s.conn) s r u → u.kexQuiet := fun h =>
    hs.emits_allowed h (by rw [x.msgOf_reply]; decide)
  cases h with
  | unsigned hend => exact hs.farewell hend
  | replyLost _ hreply => exact hreplied hreply
  | newKeysLost hr hreply hkeys => exact (hreplied hreply).lost hkeys hr
  | newKeysFailed hreply hkeys _ hend =>
      obtain ⟨hout, hsilent⟩ := (hreplied hreply).newKeys hkeys
      refine KexQuiet.farewell ⟨fun _ => hout, fun hwindow => ?_, hsilent⟩ hend
      rw [hout] at hwindow
      cases hwindow
  | switched hreply hkeys =>
      obtain ⟨hout, hsilent⟩ := (hreplied hreply).newKeys hkeys
      refine ⟨fun _ => hout, fun hwindow => ?_, hsilent⟩
      rw [hout] at hwindow
      cases hwindow

theorem HandlesNewKeys.kexQuiet (h : HandlesNewKeys s t) (hs : s.kexQuiet) : t.kexQuiet := by
  cases h with
  | unexpected _ hend | failed _ hend => exact hs.farewell hend
  | applied hkex =>
      have hstate : ∀ st, st ≠ .auth → (if s.conn.state = .kex then .auth else s.conn.state) = st →
          s.conn.state = st := by
        intro st hst h
        split at h
        · exact absurd h.symm hst
        · exact h
      refine ⟨fun h => hs.version (hstate _ (by decide) h), fun hwindow hopen => ?_, hs.silent⟩
      have hclosed : s.conn.state ≠ .closed := fun hclosed =>
        hopen (by simp [Conn.installed, hclosed])
      rw [hs.outside hclosed (by rw [hkex]; decide) fun h => by rw [hkex] at h; cases h] at hwindow
      cases hwindow

theorem Step.kexQuiet (hstep : Step E s t) (hs : s.kexQuiet) : t.kexQuiet := by
  have hauth : s.conn.state = .auth → s.conn.state ≠ .closed ∧ s.conn.state ≠ .kex := by
    intro hstate
    rw [hstate]
    decide
  have harrived : ∀ p packet mac, (s.dispatched p packet mac).kexQuiet :=
    fun _ _ _ => hs.log_congr rfl And.right rfl
  cases hstep with
  | disconnect hend => exact hs.farewell hend
  | close => exact hs.close
  | dispatch p packet mac => exact harrived p packet mac
  | skipGuess => exact harrived _ _ _
  | versionSent | accepted | readEnd | data | adjust => exact hs.log_congr rfl id rfl
  -- answers to the packet being handled
  | reply hq hp hemit =>
      rcases hp.answered with hmsg | hanswered
      · exact hs.emits_allowed hemit (by rw [hmsg]; decide)
      · exact hs.emits_outside hemit (replyMessages_ne _ hp.msg_mem) fun hclient =>
          hclient.outside hq hanswered
  | authAccepted hq hmsg hstate hform hemit =>
      refine KexQuiet.emits_outside (s := ⟨_, _⟩) ?_ hemit (by simp; decide) fun hclient =>
        hclient.verdict (.inl rfl)
      exact hs.congr nofun (fun _ => ⟨(hauth hstate).1, fun h => absurd h (hauth hstate).2⟩)
        rfl And.right rfl
  | authRejected hq hmsg hstate hform htries hemit =>
      refine KexQuiet.emits_outside (s := ⟨_, _⟩) ?_ hemit (by simp; decide) fun hclient =>
        hclient.verdict (.inr htries)
      exact hs.log_congr rfl And.right rfl
  | authExhausted _ _ hend =>
      refine KexQuiet.farewell ?_ hend
      exact hs.log_congr rfl And.right rfl
  | openChannel _ _ _ hq hmsg hstate hform _ hemit =>
      refine KexQuiet.emits_outside (s := ⟨_, _⟩) ?_ hemit (by simp; decide) fun hclient =>
        QuietClient.outside (s := s) hclient hq (by simp [answered, hmsg, hstate, hform])
      exact hs.log_congr rfl id rfl
  | closeReply hq hmsg hopen hfirst hemit =>
      refine KexQuiet.emits_outside (s := ⟨_, _⟩) ?_ hemit (by simp; decide) fun hclient =>
        QuietClient.outside (s := s) hclient hq (by simp [answered, hmsg, hopen, hfirst])
      exact hs.log_congr rfl id rfl
  -- data and credit
  | read max _ hcredit =>
      have hpopped : (s.popped max).kexQuiet := hs.log_congr rfl id rfl
      cases hcredit with
      | held => exact hpopped
      | sent hsend hemit | lost hsend hemit =>
          have ht := hpopped.emits_outside hemit (by simp; decide) fun _ =>
            hpopped.outside_of_canSendNow hsend
          exact ht
  | writeData _ hsend _ _ _ hemit | writeLost _ hsend hemit =>
      have ht := hs.emits_outside hemit (by simp; decide) fun _ => hs.outside_of_canSendNow hsend
      exact ht
  | startClose _ _ _ _ hclose => exact hs.closeHandshake hclose
  -- the exchange itself
  | acceptVersion line hstate =>
      exact ⟨nofun, fun hwindow => absurd hwindow (by rw [hs.version hstate]; decide), hs.silent⟩
  | firstKexInit hstate hkex hnew hdone =>
      have hstate' : t.conn.state = .kex := hdone.state_eq.trans hstate
      refine ⟨fun h => ?_, fun _ _ => .inr ⟨hdone.kex.trans hkex, ?_, hstate'⟩,
        hdone.silent hs (.inr hkex)⟩
      · rw [hstate'] at h
        cases h
      · exact hdone.kexInitSent
  | firstKexInitFailed hkex hnew hfail => exact hfail.kexQuiet hs (.inr hkex) hnew
  | kexInit harrives _ hend => exact hend.kexQuiet (harrived _ _ _) harrives.ne_version
  | exchange x _ hend =>
      refine hend.kexQuiet ?_
      exact hs.log_congr rfl id rfl
  | newKeys _ _ hend => exact hend.kexQuiet (harrived _ _ _)
  | _ => exact hs

theorem kexQuiet_new (hostSeed hostPub : Bytes) :
    Session.kexQuiet ⟨newConn hostSeed hostPub, []⟩ :=
  ⟨fun _ => rfl, nofun, fun _ => trivial⟩

/-- Between its `KEXINIT` and its `NEWKEYS` the server only sends what is allowed there,
as long as the client sends nothing to answer and the program closes no channel. -/
theorem kex_silence {s : Server} (h : Reachable E s) (hclient : QuietClient s.link.log) :
    KexSilent s.link.log :=
  (h.invariant (I := Session.kexQuiet) kexQuiet_new fun _ _ => Step.kexQuiet).silent hclient

/-- A client that only exchanges keys. -/
theorem kex_silence_exchange : ∃ s, Reachable (plainEnv fun _ _ => true) s ∧
    s.link.conn.state = .auth ∧ KexSilent s.link.log := by
  obtain ⟨s, hreach, hclient, hauth⟩ := exists_reachable (E := plainEnv fun _ _ => true)
    (P := fun s => QuietClient s.link.log ∧ s.link.conn.state = .auth) [.poll]
    [.data clientKex] (by decide +kernel)
  exact ⟨s, hreach, hauth, kex_silence hreach hclient⟩

/-- A `GLOBAL_REQUEST` behind the version line is answered between `KEXINIT` and
`NEWKEYS`. -/
theorem not_kexSilent : ∃ s, Reachable (plainEnv fun _ _ => true) s ∧ ¬ KexSilent s.link.log :=
  exists_reachable (E := plainEnv fun _ _ => true) (P := fun s => ¬ KexSilent s.link.log) [.poll]
    [.data (clientVersionLine ++ clearFrame globalRequest)] (by decide +kernel)

end EfiSshServer
