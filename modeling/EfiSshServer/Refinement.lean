import EfiSshServer.Step

/-!
# Every API call is a sequence of steps

One lemma per function of the source: run from any link, it ends in a link that
steps lead to.  The handlers assume that their packet is being handled, which
`dispatch` establishes.  No function below `TryProcessOne` can overflow
`clientVersion`, and the lemmas say so in their fault part.
-/

namespace EfiSshServer

open StateProgram LinkM

variable {A : Prop} {E : Env} {l : Link} {q : Bytes} {fault : Fault → Prop}

/-! ## Disconnecting -/

theorem disconnect_farewell (reason : UInt32) (msg : String) :
    wp (disconnect E reason msg) (fun _ l' => Farewell l.toSession l'.toSession) fault l := by
  simp only [disconnect, wp_bind, wp_conn, wp_ite, wp_pure, wp_update]
  refine ⟨fun h => .already h, fun hopen => ?_⟩
  exact (sendPacket_emits E _ l fault).imp fun _ _ h => .sent hopen h

theorem fail_farewell (reason : UInt32) (msg : String) :
    wp (fail E reason msg) (fun r l' => r = -1 ∧ Farewell l.toSession l'.toSession) fault l := by
  simp only [fail, wp_bind, wp_pure]
  exact (disconnect_farewell reason msg).imp fun _ _ h => ⟨trivial, h⟩

theorem fail_steps (reason : UInt32) (msg : String) :
    wp (fail E reason msg) (fun _ l' => StepsOf A E l.toSession l'.toSession) fault l :=
  (fail_farewell reason msg).imp fun _ _ h => (StepOf.disconnect h.2).steps

/-- A send that is an answer to the packet being handled. -/
theorem reply_steps {p : Bytes} (hq : Handling l.toSession q) (hp : Replies l.conn q p) :
    wp (sendPacket E p) (fun _ l' => StepsOf A E l.toSession l'.toSession) fault l :=
  (sendPacket_emits E p l fault).imp fun _ _ h => (StepOf.reply hq hp h).steps

/-! ## Authentication -/

theorem Handling.setUser (hq : Handling l.toSession q) (user : Bytes) :
    Handling ⟨{ l.conn with login := { l.conn.login with user := user } }, l.log⟩ q :=
  hq

theorem checkPassword_steps (pw : Bytes) (hq : Handling l.toSession q)
    (hmsg : msgOf q = msgUserauthRequest) (hstate : l.conn.state = .auth)
    (hform : requestsConnection q = true) :
    wp (checkPassword E pw) (fun _ l' => StepsOf A E l.toSession l'.toSession) fault l := by
  simp only [checkPassword, callAuth, wp_bind, wp_conn, wp_ask, wp_record, wp_pure, wp_ite,
    wp_update]
  refine ⟨fun hok => ?_, fun hok => ⟨fun htries => ?_, fun htries => ?_⟩⟩
  · refine (sendPacket_emits E _ _ fault).imp fun r l' h => ?_
    rw [hok] at h
    exact (StepOf.authAccepted hq hmsg hstate hform h).steps
  · refine (fail_farewell _ _).imp fun r l' h => ?_
    rw [Bool.not_eq_true] at hok
    rw [hok] at h
    exact (StepOf.authExhausted hstate htries h.2).steps
  · refine (sendPacket_emits E _ _ fault).imp fun r l' h => ?_
    rw [Bool.not_eq_true] at hok
    rw [hok] at h
    exact (StepOf.authRejected hq hmsg hstate hform (Nat.not_le.mp htries) h).steps

theorem handleUserauth_steps (hq : Handling l.toSession q) (hmsg : msgOf q = msgUserauthRequest)
    (hstate : l.conn.state = .auth) :
    wp (handleUserauth E q) (fun _ l' => StepsOf A E l.toSession l'.toSession) fault l := by
  simp only [handleUserauth, sendAuthFailure, wp_bind, wp_ite, wp_update]
  refine ⟨fun _ => fail_steps _ _, fun herr => ⟨fun _ => fail_steps _ _, fun hservice => ?_⟩⟩
  have hform : requestsConnection q = true := by
    rw [Bool.not_eq_true] at herr
    rw [Bool.not_eq_true, Bool.not_eq_false'] at hservice
    simp only [requestsConnection, herr, hservice]
    rfl
  have hfailure : offersPassword q = false → ∀ user, wp (sendPacket E authFailurePayload)
      (fun _ l' => StepsOf A E l.toSession l'.toSession) fault
      { l with conn := { l.conn with login := { l.conn.login with user := user } } } := by
    intro hpass user
    refine wp.imp (reply_steps (A := A) (hq.setUser user) (.authFailure hmsg hstate hform hpass))
      fun _ _ h => ?_
    exact (StepOf.setUser user hstate).steps.trans h
  refine ⟨fun hmethod => hfailure ?_ _, fun _ => ⟨fun hchange => hfailure ?_ _, fun _ =>
    ⟨fun hlong => hfailure ?_ _, fun _ => ?_⟩⟩⟩
  · rw [Bool.not_eq_true'] at hmethod
    simp [offersPassword, -List.drop_one, hmethod]
  · simp [offersPassword, -List.drop_one, hchange]
  · rcases hlong with herr | hlong
    · simp [offersPassword, -List.drop_one, herr]
    · simp [offersPassword, -List.drop_one, Nat.not_lt.mpr hlong]
  refine wp.imp (checkPassword_steps (A := A) _ (hq.setUser _) hmsg hstate hform) fun _ _ h => ?_
  exact (StepOf.setUser _ hstate).steps.trans h

/-! ## Key exchange -/

theorem sendKexInit_spec (hnew : l.conn.kx.kexInitSent = false) :
    wp (sendKexInit E) (fun r l' => (r ≠ 0 → KexInitFails E l.toSession l'.toSession) ∧
      (r = 0 → KexInitDone l.toSession l'.toSession)) fault l := by
  simp only [sendKexInit, sendKexInit.noKexInit, wp_bind, wp_ask]
  split
  · next cookie _ =>
      simp only [wp_ite, wp_bind, wp_ask, wp_update, wp_record, wp_pure]
      have hfits := kexInitPayload_fits cookie.toList_length
      refine ⟨fun herr => ⟨fun _ => ?_, fun h => by simp at h⟩,
        fun _ => ⟨fun halloc => ?_, fun _ => ?_⟩⟩
      · rw [hfits.1] at herr
        cases herr
      · refine ⟨fun _ => .noMemory fun hE => ?_, fun h => by simp at h⟩
        rw [hE.alloc] at halloc
        cases halloc
      · refine wp.imp (sendPacket_emits_or_closes E hfits.2 _ fault) ?_
        rintro r l' ⟨h, hcause⟩
        refine ⟨fun hr => .lost (msgOf_kexInitPayload _) hr h fun hE => hcause hE hr, fun hr => ?_⟩
        subst hr
        exact .sent hnew ⟨_, cookie.toList_length, rfl⟩ h
  · next hnone =>
      refine ⟨fun _ => .noCookie fun hE => ?_, fun h => by simp at h⟩
      obtain ⟨cookie, hcookie⟩ := Option.ne_none_iff_exists'.mp (hE.random l.calls 16)
      exact hnone cookie hcookie

/-- What `Negotiate` leaves: new algorithm choices, and a closed connection unless it
returned 0. -/
def Negotiates (s : Session) (r : Int) (t : Session) : Prop :=
  ∃ k, SameTranscript s.conn.kx k ∧ k.kexInitSent = s.conn.kx.kexInitSent ∧
    ((r = 0 ∧ (∀ q, s.conn.kx.clientKexInit = some q → Chosen q k) ∧ t = s.withKx k) ∨
      (r ≠ 0 ∧ (∀ q, s.conn.kx.clientKexInit = some q → ¬ Acceptable q) ∧
        Farewell (s.withKx k) t))

private theorem fail_negotiates (s : Session) (k : Exchange) (hsame : SameTranscript s.conn.kx k)
    (hsent : k.kexInitSent = s.conn.kx.kexInitSent)
    (hbad : ∀ q, s.conn.kx.clientKexInit = some q → ¬ Acceptable q) (reason : UInt32)
    (msg : String) (hl : l.toSession = s.withKx k) :
    wp (fail E reason msg) (fun r l' => Negotiates s r l'.toSession) fault l := by
  refine wp.imp (fail_farewell reason msg) fun r l' h => ⟨k, hsame, hsent, .inr ⟨?_, hbad, ?_⟩⟩
  · rw [h.1]
    decide
  · rw [← hl]
    exact h.2

theorem negotiate_spec (hclient : l.conn.kx.clientKexInit ≠ none) :
    wp (negotiate E) (fun r l' => Negotiates l.toSession r l'.toSession) fault l := by
  simp only [negotiate, updateKx, wp_bind, wp_conn, wp_deref]
  refine ⟨fun payload hpayload => ?_, fun hnone => absurd hnone hclient⟩
  have hfail : ∀ (l' : Link) (k : Exchange) (reason : UInt32) (msg : String),
      l'.toSession = l.toSession.withKx k → SameTranscript l.conn.kx k →
      k.kexInitSent = l.conn.kx.kexInitSent → ¬ Acceptable payload →
      wp (fail E reason msg) (fun r t => Negotiates l.toSession r t.toSession) fault l' := by
    intro l' k reason msg hl hsame hsent hbad
    refine fail_negotiates _ k hsame hsent (fun q hq => ?_) reason msg hl
    obtain rfl : payload = q := Option.some.inj (hpayload.symm.trans hq)
    exact hbad
  simp only [wp_ite]
  refine ⟨fun hshort => hfail _ l.conn.kx _ _ rfl ⟨rfl, rfl, rfl⟩ rfl fun h =>
    absurd hshort (Nat.not_lt.mpr h.long), fun hlong => ⟨fun herr => hfail _ l.conn.kx _ _ rfl
      ⟨rfl, rfl, rfl⟩ rfl fun h => Bool.false_ne_true (h.complete.symm.trans herr),
      fun hcomplete => ?_⟩⟩
  rw [Bool.not_eq_true] at hcomplete
  -- each list is picked from in turn; a failure leaves the choices made so far
  split
  swap
  · next hkex =>
    exact hfail _ l.conn.kx _ _ rfl ⟨rfl, rfl, rfl⟩ rfl fun h =>
      h.kex (Option.eq_none_iff_forall_ne_some.mpr hkex)
  next pick hpick =>
  simp only [wp_bind, wp_update]
  split
  swap
  · next hhk =>
    exact hfail _ _ _ _ rfl ⟨rfl, rfl, rfl⟩ rfl fun h =>
      h.hk (Option.eq_none_iff_forall_ne_some.mpr hhk)
  next _ _ hhk =>
  split
  swap
  · next henc =>
    exact hfail _ _ _ _ rfl ⟨rfl, rfl, rfl⟩ rfl fun h =>
      h.encCs (Option.eq_none_iff_forall_ne_some.mpr henc)
  next _ _ keyIn hkeyIn =>
  simp only [wp_bind, wp_update]
  split
  swap
  · next henc =>
    exact hfail _ _ _ _ rfl ⟨rfl, rfl, rfl⟩ rfl fun h =>
      h.encSc (Option.eq_none_iff_forall_ne_some.mpr henc)
  next _ _ keyOut hkeyOut =>
  simp only [wp_bind, wp_update]
  split
  swap
  · next hmac =>
    exact hfail _ _ _ _ rfl ⟨rfl, rfl, rfl⟩ rfl fun h =>
      h.macCs (Option.eq_none_iff_forall_ne_some.mpr hmac)
  next _ _ macIn hmacIn =>
  simp only [wp_bind, wp_update]
  split
  swap
  · next hmac =>
    exact hfail _ _ _ _ rfl ⟨rfl, rfl, rfl⟩ rfl fun h =>
      h.macSc (Option.eq_none_iff_forall_ne_some.mpr hmac)
  next _ _ macOut hmacOut =>
  simp only [wp_bind, wp_update, wp_ite, wp_pure]
  refine ⟨fun hcomp => hfail _ _ _ _ rfl ⟨rfl, rfl, rfl⟩ rfl fun h =>
    hcomp.elim h.compCs h.compSc, fun hcomp => ?_⟩
  obtain ⟨hcompCs, hcompSc⟩ := not_or.mp hcomp
  refine ⟨_, ?_, ?_, .inl ⟨rfl, ?_, rfl⟩⟩
  · exact ⟨rfl, rfl, rfl⟩
  · rfl
  · intro q hq
    obtain rfl : payload = q := Option.some.inj (hpayload.symm.trans hq)
    constructor
    · exact ⟨Nat.not_lt.mp hlong, hcomplete, hpick ▸ nofun, hhk ▸ nofun, hkeyIn ▸ nofun,
        hkeyOut ▸ nofun, hmacIn ▸ nofun, hmacOut ▸ nofun, hcompCs, hcompSc⟩
    · exact ⟨pick, hpick, rfl⟩
    · rw [hkeyIn, Option.map_some]
    · rw [hkeyOut, Option.map_some]
    · rw [hmacIn, Option.map_some]
    · rw [hmacOut, Option.map_some]

/-- The end of the `KEXINIT` case, once both sides' messages are there. -/
private theorem finish_handles {s : Session} (hkex : s.conn.awaitsKexInit)
    (hdone : KexInitDone (s.withKx { s.conn.kx with clientKexInit := some q }) l.toSession) :
    wp (handleKexInit.finish E) (fun _ l' => HandlesKexInit E q s l'.toSession) fault l := by
  simp only [handleKexInit.finish, updateKx, wp_bind, wp_update, wp_ite, wp_pure]
  have hclient : l.conn.kx.clientKexInit = some q := hdone.clientKexInit
  refine wp.imp (negotiate_spec ?_) fun r l' ⟨k, hsame, hsent, hend⟩ => ?_
  · rw [hclient]
    exact Option.some_ne_none q
  rcases hend with ⟨rfl, hchosen, heq⟩ | ⟨hr, -, hend⟩
  · refine ⟨fun h => absurd rfl h, fun _ => ?_⟩
    rcases l' with ⟨t, calls⟩
    subst heq
    have hend := HandlesKexInit.negotiated (E := E) k hkex hdone hsame hsent (hchosen q hclient)
    exact hend
  · exact ⟨fun _ => .notNegotiated k hkex hdone hsame hsent hend, fun h => absurd hr h⟩

theorem handleKexInit_handles :
    wp (handleKexInit E q) (fun _ l' => HandlesKexInit E q l.toSession l'.toSession) fault l := by
  simp only [handleKexInit, updateKx, wp_bind, wp_conn, wp_ite, wp_ask, wp_update, wp_pure]
  refine ⟨fun hkex => ?_, fun hkex => ?_⟩
  · refine wp.imp (fail_farewell _ _) fun _ _ h => .unexpected ?_ h.2
    exact fun hawaits => hawaits.elim hkex.1 hkex.2
  have hkex : l.conn.awaitsKexInit := by
    unfold Conn.awaitsKexInit
    by_contra h
    exact hkex (not_or.mp h)
  refine ⟨fun _ => ?_, fun _ => ⟨fun hnew => ?_, fun hsent => ?_⟩⟩
  · exact wp.imp (fail_farewell _ _) fun _ _ h => .noMemory hkex h.2
  · refine wp.imp (sendKexInit_spec hnew) fun r l' h => ⟨fun hr => ?_, fun hr => ?_⟩
    · exact .failed hkex hnew (h.1 hr)
    · exact finish_handles hkex (h.2 (not_not.mp hr))
  · rw [Bool.not_eq_false] at hsent
    exact finish_handles hkex (.earlier hsent)

theorem curveExchange_spec (qc : Bytes) :
    wp (curveExchange E qc) (fun out l' => l'.toSession = l.toSession ∧
      ∀ qs k, out = some (qs, k) → Agreed E qc qs k) fault l := by
  simp only [curveExchange, wp_bind, wp_ask]
  split
  · next mine _ =>
      simp only [wp_ite, wp_bind, wp_ask, wp_pure]
      refine ⟨fun _ => ⟨trivial, nofun⟩, fun _ => ⟨fun _ => ⟨trivial, nofun⟩, fun _ =>
        ⟨fun _ => ⟨trivial, nofun⟩, fun _ => ⟨fun _ => ⟨trivial, nofun⟩,
          fun hlength => ⟨trivial, ?_⟩⟩⟩⟩⟩
      rintro qs k ⟨⟩
      exact ⟨mine, rfl, rfl, not_not.mp hlength⟩
  · exact ⟨rfl, nofun⟩

theorem switchKeys_ends_exchange {x : Transcript} {sig : Bytes} (sessionId : Bytes)
    (hreply : (kexdhReplyPayload x.ks x.qs sig).data = x.reply E l.conn)
    (hfits : (kexdhReplyPayload x.ks x.qs sig).err = false ∧
      (kexdhReplyPayload x.ks x.qs sig).data.length + 64 ≤ sshMaxPacket) :
    wp (switchKeys E (kexdhReplyPayload x.ks x.qs sig) sessionId x.kMp (x.hash E))
      (fun _ l' => ExchangeEnds E x sessionId l.toSession l'.toSession) fault l := by
  obtain ⟨herr, hlen⟩ := hfits
  simp only [switchKeys, herr, wp_bind, wp_ite, wp_ask, wp_update, wp_pure]
  refine ⟨nofun, fun _ => ?_⟩
  refine wp.imp (sendPacket_emits_or_closes E hlen l fault) ?_
  rintro r l₁ ⟨h₁, hcause₁⟩
  rw [hreply] at h₁
  refine ⟨fun hr => .replyLost hr h₁ fun hE => hcause₁ hE hr, fun hr => ?_⟩
  rw [not_not.mp hr] at h₁
  refine wp.imp (sendPacket_emits_or_closes E (by decide) l₁ fault) ?_
  rintro r l₂ ⟨h₂, hcause₂⟩
  refine ⟨fun hr => .newKeysLost hr h₁ h₂ fun hE => hcause₂ hE hr, fun hr => ?_⟩
  rw [not_not.mp hr] at h₂
  refine ⟨fun hset => ?_, fun _ => .switched h₁ h₂⟩
  refine wp.imp (fail_farewell _ _) fun _ _ hend => .newKeysFailed h₁ h₂ ⟨l₂.calls, ?_⟩ hend.2
  simpa using hset

theorem doKexDh_steps (hq : Handling l.toSession q) (hmsg : msgOf q = msgKexdhInit)
    (hkex : l.conn.kex = .waitDh) (hclosed : l.conn.state ≠ .closed)
    (hversion : l.conn.state ≠ .version) (hbuf : l.conn.buffers) :
    wp (doKexDh E q) (fun _ l' => StepsOf A E l.toSession l'.toSession) fault l := by
  simp only [doKexDh, updateKx, wp_bind, wp_ite]
  refine ⟨fun _ => fail_steps _ _, fun hform => ?_⟩
  refine wp.imp (curveExchange_spec _) fun keys l₁ h₁ => ?_
  obtain ⟨hl₁, hagreed⟩ := h₁
  have hconn : l₁.conn = l.conn := congrArg Session.conn hl₁
  rw [← hl₁] at hq ⊢
  rw [← hconn] at hkex hclosed hversion hbuf
  split
  · next qs k =>
      obtain ⟨herr, hqc⟩ := not_or.mp hform
      have hagreed := hagreed qs k rfl
      simp only [wp_bind, wp_ite, wp_conn, wp_deref, wp_update, wp_record, wp_ask]
      refine ⟨fun _ => fail_steps _ _, fun _ =>
        ⟨fun clientKexInit hclient => ⟨fun serverKexInit hserver => ?_, ?_⟩, ?_⟩⟩
      · -- both `KEXINIT` payloads are there, so that the hash is over real buffers
        have hx : Exchanges E l₁.toSession q ⟨l₁.conn.clientVersion, ascii sshServerVersion,
            clientKexInit, serverKexInit, hostKeyBlob l₁.conn.hostPub,
            (rStr (rInit (q.drop 1))).val, qs, k⟩ :=
          ⟨hq, hmsg, hkex, hclosed, hversion, rfl, rfl, hclient, hserver, rfl,
            ⟨by simpa using herr, rfl, not_not.mp hqc⟩, hagreed⟩
        refine ⟨fun _ => ?_, fun hsig => ?_⟩
        · refine wp.imp (fail_farewell _ _) fun _ _ h => ?_
          exact (StepOf.exchange _ hx (.unsigned h.2)).steps
        · refine wp.imp (switchKeys_ends_exchange (x := ⟨l₁.conn.clientVersion,
            ascii sshServerVersion, clientKexInit, serverKexInit, hostKeyBlob l₁.conn.hostPub,
            (rStr (rInit (q.drop 1))).val, qs, k⟩) _ rfl ?_) fun _ _ h => ?_
          · obtain ⟨mine, rfl, -⟩ := hagreed
            exact length_kexdhReplyPayload (length_hostKeyBlob_le _) (by simp)
              (not_not.mp (not_or.mp hsig).2)
          · exact (StepOf.exchange _ hx h).steps
      · exact fun hnone => absurd hnone (hbuf.server_of_waitDh hkex)
      · exact fun hnone => absurd hnone (hbuf.client_of_waitDh hkex)
  · exact fail_steps _ _

theorem applyNewKeys_handles (hkex : l.conn.kex = .waitNewkeys) :
    wp (applyNewKeys E) (fun _ l' => HandlesNewKeys l.toSession l'.toSession) fault l := by
  simp only [applyNewKeys, wp_bind, wp_ask, wp_ite, wp_update, wp_pure]
  refine ⟨fun _ => ?_, fun _ => .applied hkex⟩
  exact wp.imp (fail_farewell _ _) fun _ _ h => .failed hkex h.2

/-! ## Services and the channel -/

theorem handleServiceRequest_steps (hq : Handling l.toSession q)
    (hmsg : msgOf q = msgServiceRequest) :
    wp (handleServiceRequest E q) (fun _ l' => StepsOf A E l.toSession l'.toSession) fault l := by
  simp only [handleServiceRequest, wp_bind, wp_conn, wp_ite]
  refine ⟨fun _ => fail_steps _ _, fun hstate => ⟨fun _ => fail_steps _ _, fun hname => ?_⟩⟩
  refine reply_steps hq (.serviceAccept hmsg (not_or.mp hstate).2 ?_)
  simpa [requestsUserauth] using hname

theorem handleGlobalRequest_steps (hq : Handling l.toSession q)
    (hmsg : msgOf q = msgGlobalRequest) :
    wp (handleGlobalRequest E q) (fun _ l' => StepsOf A E l.toSession l'.toSession) fault l := by
  simp only [handleGlobalRequest, wp_ite, wp_pure]
  exact ⟨fun hwant => reply_steps hq (.requestFailure hmsg hwant), fun _ => .refl _⟩

theorem handleChannelOpen_steps (hq : Handling l.toSession q) (hmsg : msgOf q = msgChannelOpen)
    (hstate : l.conn.state = .conn) :
    wp (handleChannelOpen E q) (fun _ l' => StepsOf A E l.toSession l'.toSession) fault l := by
  simp only [handleChannelOpen, updateChan, wp_bind, wp_ite, wp_conn, wp_update, wp_record]
  refine ⟨fun _ => fail_steps _ _, fun herr => ?_⟩
  have hform : opensChannel q = true := by simpa [opensChannel] using herr
  refine ⟨fun h => ?_, fun _ => reply_steps hq (.openFailure hmsg hstate hform _)⟩
  refine wp.imp (sendPacket_emits E _ _ fault) fun _ _ hsent => ?_
  exact (StepOf.openChannel _ _ _ hq hmsg hstate hform h.2 hsent).steps

theorem applyRequest_steps (rest : RBuf) (hq : Handling l.toSession q)
    (hstate : l.conn.state = .conn) (hopen : l.conn.chan.chanOpen = true) :
    wp (applyRequest (readRequestHead q).type rest) (fun _ l' =>
      StepsOf A E l.toSession l'.toSession ∧ Handling l'.toSession q ∧ l'.conn.state = .conn ∧
        l'.conn.chan.chanOpen = true) fault l := by
  simp only [applyRequest, updateChan, wp_ite, wp_bind, wp_update, wp_pure]
  have hsame : StepsOf A E l.toSession l.toSession ∧ Handling l.toSession q ∧
      l.conn.state = .conn ∧ l.conn.chan.chanOpen = true := ⟨.refl _, hq, hstate, hopen⟩
  refine ⟨fun hpty => ⟨fun _ => hsame, fun _ => ?_⟩, fun _ => ⟨fun _ => ?_, fun _ =>
    ⟨fun hchange => ⟨fun _ => hsame, fun _ => ?_⟩, fun _ => hsame⟩⟩⟩
  · have hsize : tellsSize q = true := by rw [tellsSize, hpty, Bool.true_or]
    exact ⟨(StepOf.resize _ _ hq hsize hstate hopen).steps, hq, hstate, hopen⟩
  · exact ⟨(StepOf.shell hstate hopen).steps, hq, hstate, hopen⟩
  · have hsize : tellsSize q = true := by rw [tellsSize, hchange, Bool.or_true]
    exact ⟨(StepOf.resize _ _ hq hsize hstate hopen).steps, hq, hstate, hopen⟩

theorem handleChannelRequest_steps (hq : Handling l.toSession q)
    (hmsg : msgOf q = msgChannelRequest) (hstate : l.conn.state = .conn) :
    wp (handleChannelRequest E q) (fun _ l' => StepsOf A E l.toSession l'.toSession) fault l := by
  simp only [handleChannelRequest, sendChannelReply, wp_bind, wp_ite, wp_conn, wp_pure]
  refine ⟨fun _ => fail_steps _ _, fun hok => ?_⟩
  simp only [not_or, Bool.not_eq_true, Bool.not_eq_false, not_not] at hok
  obtain ⟨herr, hrecipient, hopen⟩ := hok
  refine wp.imp (applyRequest_steps (A := A) (E := E) _ hq hstate hopen) fun ok l' h => ?_
  obtain ⟨hsteps, hq', hstate', hopen'⟩ := h
  refine ⟨fun hwant => ?_, fun _ => hsteps⟩
  have hwants : requestWantsReply q = true := by
    simp [requestWantsReply, herr, hrecipient, hwant]
  refine wp.imp (reply_steps (A := A) hq' (.channelReply hmsg hwants hstate' hopen' ok))
    fun _ _ h => ?_
  exact hsteps.trans h

theorem handleChannelData_steps :
    wp (handleChannelData E q) (fun _ l' => StepsOf A E l.toSession l'.toSession) fault l := by
  simp only [handleChannelData, wp_bind, wp_conn, wp_ite, wp_record, wp_update, wp_pure]
  refine ⟨fun _ => fail_steps _ _, fun hok => ⟨fun _ => fail_steps _ _, fun _ => ?_⟩⟩
  exact (StepOf.data _ (by simpa using (not_or.mp hok).2)).steps

theorem handleWindowAdjust_steps :
    wp (handleWindowAdjust q) (fun _ l' => StepsOf A E l.toSession l'.toSession) fault l := by
  simp only [handleWindowAdjust, updateChan, wp_bind, wp_ite, wp_record, wp_update, wp_pure]
  exact ⟨fun _ => .refl _, fun _ => (StepOf.adjust _).steps⟩

theorem handleChannelClose_steps (hq : Handling l.toSession q) (hmsg : msgOf q = msgChannelClose) :
    wp (handleChannelClose E) (fun _ l' => StepsOf A E l.toSession l'.toSession) fault l := by
  simp only [handleChannelClose, sendChannelReply, updateChan, wp_bind, wp_conn, wp_ite, wp_update,
    wp_pure]
  have hclose := (StepOf.clientClose (A := A) (E := E) (s := l.toSession)).steps
  refine ⟨fun h => ?_, fun _ => hclose⟩
  refine wp.imp (sendPacket_emits E _ _ fault) fun _ _ hsent => ?_
  exact hclose.trans (StepOf.closeReply (E := E) (s := ⟨{ l.conn with
    chan := { l.conn.chan with closeRecv := true } }, l.log⟩) hq hmsg h.1 h.2 hsent).steps

/-! ## `HandlePacket` -/

theorem handleMessage_steps (hq : Handling l.toSession q) (hbuf : l.conn.buffers)
    (hclosed : l.conn.state ≠ .closed) (hversion : l.conn.state ≠ .version)
    (hother : msgOf q ≠ msgKexinit ∧ msgOf q ≠ msgNewkeys) :
    wp (handleMessage E (msgOf q) q)
      (fun _ l' => StepsOf A E l.toSession l'.toSession) fault l := by
  rw [handleMessage, wp_bind, wp_conn]
  refine wp.ite (fun _ => StepOf.close.steps) fun _ => ?_
  refine wp.ite (fun _ => .refl _) fun _ => ?_
  refine wp.ite (fun hmsg => absurd hmsg hother.1) fun _ => ?_
  refine wp.ite (fun hmsg => ?_) fun _ => ?_
  · refine wp.ite (fun _ => fail_steps _ _) fun h => ?_
    exact doKexDh_steps hq hmsg (not_not.mp h) hclosed hversion hbuf
  refine wp.ite (fun hmsg => absurd hmsg hother.2) fun _ => ?_
  refine wp.ite (fun hmsg => handleServiceRequest_steps hq hmsg) fun _ => ?_
  refine wp.ite (fun hmsg => ?_) fun _ => ?_
  · refine wp.ite (fun _ => .refl _) fun _ => ?_
    exact wp.ite (fun _ => fail_steps _ _) fun h => handleUserauth_steps hq hmsg (not_not.mp h)
  refine wp.ite (fun hmsg => handleGlobalRequest_steps hq hmsg) fun _ => ?_
  refine wp.ite (fun hmsg => ?_) fun _ => ?_
  · exact wp.ite (fun _ => fail_steps _ _) fun h => handleChannelOpen_steps hq hmsg (not_not.mp h)
  refine wp.ite (fun hmsg => ?_) fun _ => ?_
  · refine wp.ite (fun _ => fail_steps _ _) fun h => ?_
    exact handleChannelRequest_steps hq hmsg (not_not.mp h)
  refine wp.ite (fun _ => handleChannelData_steps) fun _ => ?_
  refine wp.ite (fun _ => .refl _) fun _ => ?_
  refine wp.ite (fun _ => handleWindowAdjust_steps) fun _ => ?_
  refine wp.ite (fun _ => StepOf.clientEof.steps) fun _ => ?_
  refine wp.ite (fun hmsg => handleChannelClose_steps hq hmsg) fun _ => ?_
  exact reply_steps hq (.unimplemented _)

theorem handlePacket_steps (hq : Handling l.toSession q) (hbuf : l.conn.buffers)
    (hclosed : l.conn.state ≠ .closed) (hversion : l.conn.state ≠ .version)
    (hother : msgOf q ≠ msgKexinit ∧ msgOf q ≠ msgNewkeys) (hkeep : l.conn.discards q = false) :
    wp (handlePacket E q) (fun _ l' => StepsOf A E l.toSession l'.toSession) fault l := by
  by_cases hne : q = []
  · rw [hne]
    exact fail_steps _ _
  · have hmessage : wp (handleMessage E (msgOf q) q)
        (fun _ l' => StepsOf A E l.toSession l'.toSession) fault l :=
      handleMessage_steps hq hbuf hclosed hversion hother
    rw [wp] at hmessage ⊢
    rw [handlePacket_eq hne hkeep hversion]
    exact hmessage

theorem handlePacket_skips (hskip : l.conn.discards q = true) :
    wp (handlePacket E q) (fun _ l' => l'.toSession =
      l.toSession.withKx { l.conn.kx with ignoreNextKexPacket := false }) fault l := by
  rw [wp, handlePacket_of_discards hskip]
  rfl

/-- `KEXINIT` and `NEWKEYS` go straight to their handlers. -/
theorem handlePacket_kexInit (hversion : l.conn.state ≠ .version) (hmsg : msgOf q = msgKexinit) :
    wp (handlePacket E q) (fun _ l' => HandlesKexInit E q l.toSession l'.toSession) fault l := by
  have hne : q ≠ [] := by
    rintro rfl
    cases hmsg
  have heq := handlePacket_eq (E := E) hne (l.conn.discards_of_msg (by rw [hmsg]; decide)) hversion
  have hmessage : wp (handleMessage E (msgOf q) q)
      (fun _ l' => HandlesKexInit E q l.toSession l'.toSession) fault l := by
    rw [hmsg, handleMessage, wp_bind, wp_conn]
    refine wp.ite (fun h => absurd h (by decide)) fun _ => ?_
    refine wp.ite (fun h => absurd h (by decide)) fun _ => ?_
    exact wp.ite (fun _ => handleKexInit_handles) fun h => absurd rfl h
  rw [wp] at hmessage ⊢
  rw [heq]
  exact hmessage

theorem handlePacket_newKeys (hversion : l.conn.state ≠ .version) (hmsg : msgOf q = msgNewkeys) :
    wp (handlePacket E q) (fun _ l' => HandlesNewKeys l.toSession l'.toSession) fault l := by
  have hne : q ≠ [] := by
    rintro rfl
    cases hmsg
  have heq := handlePacket_eq (E := E) hne (l.conn.discards_of_msg (by rw [hmsg]; decide)) hversion
  have hmessage : wp (handleMessage E (msgOf q) q)
      (fun _ l' => HandlesNewKeys l.toSession l'.toSession) fault l := by
    rw [hmsg, handleMessage, wp_bind, wp_conn]
    refine wp.ite (fun h => absurd h (by decide)) fun _ => ?_
    refine wp.ite (fun h => absurd h (by decide)) fun _ => ?_
    refine wp.ite (fun h => absurd h (by decide)) fun _ => ?_
    refine wp.ite (fun h => absurd h (by decide)) fun _ => ?_
    refine wp.ite (fun _ => ?_) fun h => absurd rfl h
    refine wp.ite (fun hkex => ?_) fun hkex => applyNewKeys_handles (not_not.mp hkex)
    exact wp.imp (fail_farewell _ _) fun _ _ h => .unexpected hkex h.2
  rw [wp] at hmessage ⊢
  rw [heq]
  exact hmessage

end EfiSshServer
