import EfiSshServer.Runs
import EfiSshServer.Decoding

/-!
# Assertions about the link

What the packet layer counts (sequence numbers, places in a key stream, bytes on the wire)
moves on in few places: a packet is sent, one arrives, the keys are switched, the version
line goes out.  All else that a handler does leaves it alone.

* `SameCounters` are the fields that only these places touch.
* `SendInvariant` is an assertion that the sends keep and that does not look at the rest of the
  connection.  A `HandlerInvariant` is also kept where the keys are switched, and by all the
  handlers; `LinkInvariant` knows of the other places too.  `ServeInvariant` and
  `DispatchInvariant` take the dispatch of a packet as one step.
* `LinkInvariant.dispatchInvariant` takes the handlers apart, once for all assertions,
  `ServeInvariant.unreadInvariant` the receiver and the API but for `SshRead`, and
  `DispatchInvariant.partInvariant` all of it: the assertion holds along every run.
-/

namespace EfiSshServer

open StateProgram LinkM

variable {E : Env} {I : Link → Prop} {p : Bytes}

/-! ## The rule -/

/-- The fields of the packet layer; a closed connection stays closed. -/
structure SameCounters (c c' : Conn) : Prop where
  inSeq : c'.inDir.seq = c.inDir.seq
  outDir : c'.outDir = c.outDir
  versionSent : c'.versionSent = c.versionSent
  isOpen : c'.state ≠ .closed → c.state ≠ .closed

/-- A call of the write callback. -/
def Call.isWrite : Call → Bool
  | .write _ => true
  | _ => false

/-- The events of the packet layer. -/
def Event.isPacket : Event → Bool
  | .versionSent _ | .sent .. | .sendFailed .. | .dispatch .. => true
  | _ => false

/-- The connection when the packet is counted that just came in. -/
def Conn.arrived (c : Conn) : Conn := { c with inDir := { c.inDir with seq := c.inDir.seq + 1 } }

/-- What the server sends on its own account, not as an answer. -/
def ownMessages : List UInt8 :=
  [msgDisconnect, msgKexinit, msgChannelWindowAdjust, msgChannelData, msgChannelEof,
    msgChannelClose, msgChannelRequest]

/-- What is recorded beside the handlers, and not by `SshRead`. -/
def Event.isOwn : Event → Bool
  | .kexInitFailed | .accepted | .closing _ => true
  | _ => false

/-- What `SshRead` records. -/
def Event.isTaken : Event → Bool
  | .popped .. | .readEnd _ => true
  | _ => false

/-- What the packets of the channel record that open it, bring data or grant window. -/
def Event.isBrought : Event → Bool
  | .opened .. | .adjusted _ | .received .. => true
  | _ => false

/-- What the other handlers record. -/
def Event.isHandled : Event → Bool
  | .kexInitFailed | .exchange .. | .auth .. => true
  | _ => false

/-- The messages whose handlers record it. -/
def bringingMessages : List UInt8 := [msgChannelOpen, msgChannelData, msgChannelWindowAdjust]

/-- An assertion that the sends of the messages in `P` keep and the events in `R`, and that
otherwise looks only at the packet layer. -/
structure SendInvariant (E : Env) (P : UInt8 → Prop) (R : Event → Prop) (I : Link → Prop) :
    Prop where
  update : ∀ {l c}, I l → SameCounters l.conn c → I { l with conn := c }
  ask : ∀ {l call}, I l → call.isWrite = false → I { l with calls := call :: l.calls }
  record : ∀ {l e}, I l → R e → I { l with log := e :: l.log }
  send : ∀ {p}, P (msgOf p) → Keeps I (sendPacket E p)

/-- An assertion that the dispatch of a packet keeps, as a whole, and everything else but
`SshRead`. -/
structure ServeInvariant (E : Env) (I : Link → Prop) : Prop
    extends SendInvariant E (· ∈ ownMessages) (fun e => e.isOwn = true) I where
  dispatch : ∀ payload packet mac, Keeps I (dispatch (handlePacket E) payload packet mac)
  version : Keeps I (sendVersion E)

/-- An assertion that `SshRead` keeps as well. -/
structure DispatchInvariant (E : Env) (I : Link → Prop) : Prop extends ServeInvariant E I where
  take : ∀ {l e}, I l → e.isTaken = true → I { l with log := e :: l.log }

/-- An assertion that the sends keep, the switch of the keys and the events in `R`. -/
structure HandlerInvariant (E : Env) (R : Event → Prop) (I : Link → Prop) : Prop
    extends SendInvariant E (· ≠ msgNewkeys) R I where
  switch : ∀ {reply : WBuf} (sessionId kMp h : Bytes), msgOf reply.data ≠ msgNewkeys →
    Keeps I (switchKeys E reply sessionId kMp h)

/-- An assertion that every part of the packet layer keeps. -/
structure LinkInvariant (E : Env) (I : Link → Prop) : Prop
    extends HandlerInvariant E (fun e => e.isPacket = false) I where
  arrive : ∀ {l} (payload packet mac : Bytes), I l →
    I { l with conn := l.conn.arrived, log := .dispatch payload packet mac l.conn.arrived :: l.log }
  version : Keeps I (sendVersion E)

theorem keeps_conn : Keeps I LinkM.conn := fun _ hl => hl

theorem keeps_deref (b : Option Bytes) : Keeps I (LinkM.deref b) := by
  cases b with
  | none => exact .throw _
  | some b => exact .pure b

/-! ## Receivers -/

/-- Run on a receiver, a program of the link keeps what it keeps of the link. -/
theorem keeps_onLink {α : Type} {m : LinkM α} (hm : Keeps I m) :
    Keeps (fun r : Receiver => I r.link) (RecvM.onLink m) := by
  intro r hr
  rw [RecvM.wp_onLink]
  exact hm r.link hr

theorem keeps_slice (off len : ℕ) : Keeps (fun r : Receiver => I r.link) (RecvM.slice off len) :=
  fun _ hr => wp_slice_any hr

theorem keeps_compact (n : ℕ) : Keeps (fun r : Receiver => I r.link) (RecvM.compact n) := by
  intro r hr
  by_cases hrange : n ≤ r.rx.buf.length
  · exact RecvM.wp_compact hrange hr
  · simp [wp, RecvM.compact, hrange]

theorem keeps_setRx (f : Rx → Rx) : Keeps (fun r : Receiver => I r.link) (RecvM.setRx f) :=
  fun _ hr => hr

theorem keeps_rx : Keeps (fun r : Receiver => I r.link) RecvM.rx := fun _ hr => hr

theorem keeps_recvConn : Keeps (fun r : Receiver => I r.link) RecvM.conn := fun _ hr => hr

namespace SendInvariant

variable {P : UInt8 → Prop} {R : Event → Prop} (hI : SendInvariant E P R I)

include hI

/-! ## Actions -/

theorem set {f : Conn → Conn} (hf : ∀ c, SameCounters c (f c)) : Keeps I (LinkM.update f) :=
  fun _ hl => hI.update hl (hf _)

theorem call {α : Type} {call : Call} (answer : List Call → α) (h : call.isWrite = false) :
    Keeps I (LinkM.ask call answer) :=
  fun _ hl => hI.ask hl h

theorem event {e : Conn → Event} (h : ∀ c, R (e c)) : Keeps I (LinkM.record e) :=
  fun _ hl => hI.record hl (h _)

theorem close : Keeps I (LinkM.update fun c => { c with state := .closed }) :=
  hI.set fun _ => ⟨rfl, rfl, rfl, fun h => absurd rfl h⟩

theorem updateChan (f : Channel → Channel) : Keeps I (updateChan f) :=
  hI.set fun _ => ⟨rfl, rfl, rfl, id⟩

theorem updateKx (f : Exchange → Exchange) : Keeps I (updateKx f) :=
  hI.set fun _ => ⟨rfl, rfl, rfl, id⟩

theorem sendChannelReply {msg : UInt8} (h : P msg) : Keeps I (sendChannelReply E msg) :=
  .bind keeps_conn fun c => hI.send (by rwa [msgOf_channelReplyPayload])

theorem disconnect (hP : P msgDisconnect) (reason : UInt32) (msg : String) :
    Keeps I (disconnect E reason msg) := by
  refine .bind keeps_conn fun c => .ite (fun _ => .pure _) fun _ => ?_
  refine .bind (hI.send ?_) fun _ => hI.close
  rwa [msgOf_disconnectPayload]

theorem fail (hP : P msgDisconnect) (reason : UInt32) (msg : String) :
    Keeps I (fail E reason msg) :=
  .bind (hI.disconnect hP reason msg) fun _ => .pure _

theorem sendKexInit (hP : P msgKexinit) (hR : R .kexInitFailed) : Keeps I (sendKexInit E) := by
  have hnone : Keeps I (sendKexInit.noKexInit) := .bind (hI.event fun _ => hR) fun _ => .pure _
  refine .bind (hI.call _ rfl) fun cookie => ?_
  cases cookie with
  | none => exact hnone
  | some cookie =>
      refine .ite (fun _ => .bind hnone fun _ => .pure _) fun _ => ?_
      refine .bind (hI.call _ rfl) fun ok => .ite (fun _ => ?_) fun _ => ?_
      · refine .bind (hI.set fun _ => ?_) fun _ => .bind hnone fun _ => .pure _
        exact ⟨rfl, rfl, rfl, id⟩
      · refine .bind (hI.set fun _ => ?_) fun _ => hI.send ?_
        · exact ⟨rfl, rfl, rfl, id⟩
        · rwa [msgOf_kexInitPayload]

/-- `J` holds between a `NEWKEYS` and the switch of the keys. -/
theorem switchKeys {J : Link → Prop} {reply : WBuf} (hP : P msgDisconnect)
    (hsent : ∀ {l}, I l → wp (sendPacket E newkeysPayload)
      (fun ret l' => (ret ≠ 0 → I l') ∧ (ret = 0 → J l')) anyFault l)
    (hunset : ∀ {l}, J l → E.aesSetKeyOk l.calls = false →
      I { l with calls := .aesSetKey :: l.calls })
    (hset : ∀ {l} (derive : Char → ℕ → Bytes), J l →
      I { l with conn := l.conn.switched derive, calls := .aesSetKey :: l.calls })
    (sessionId kMp h : Bytes) (hreply : P (msgOf reply.data)) :
    Keeps I (switchKeys E reply sessionId kMp h) := by
  intro l hl
  simp only [EfiSshServer.switchKeys]
  refine wp.ite (fun _ => hl) fun _ => ?_
  simp only [wp_bind]
  refine wp.imp (hI.send hreply l hl) fun ret l₁ h₁ => wp.ite (fun _ => h₁) fun _ => ?_
  simp only [wp_bind]
  refine wp.imp (hsent h₁) fun ret l₂ h₂ => wp.ite (fun hret => h₂.1 hret) fun hret => ?_
  have h₂ := h₂.2 (not_not.mp hret)
  simp only [wp_bind, LinkM.wp_ask]
  refine wp.ite (fun hfail => ?_) fun _ => ?_
  · refine hI.fail hP _ _ _ (hunset h₂ ?_)
    simpa using hfail
  · exact hset (deriveKey E sessionId kMp h) h₂

/-! ## Handlers that send no answer -/

theorem negotiate (hP : P msgDisconnect) : Keeps I (negotiate E) := by
  refine .bind keeps_conn fun c => .bind (keeps_deref _) fun payload => ?_
  refine .ite (fun _ => hI.fail hP _ _) fun _ => .ite (fun _ => hI.fail hP _ _) fun _ => ?_
  split
  swap
  · exact hI.fail hP _ _
  refine .bind (hI.updateKx _) fun _ => ?_
  split
  swap
  · exact hI.fail hP _ _
  split
  swap
  · exact hI.fail hP _ _
  refine .bind (hI.updateKx _) fun _ => ?_
  split
  swap
  · exact hI.fail hP _ _
  refine .bind (hI.updateKx _) fun _ => ?_
  split
  swap
  · exact hI.fail hP _ _
  refine .bind (hI.updateKx _) fun _ => ?_
  split
  swap
  · exact hI.fail hP _ _
  refine .bind (hI.updateKx _) fun _ => ?_
  exact .ite (fun _ => hI.fail hP _ _) fun _ => .pure _

theorem handleKexInit (hP : P msgDisconnect) (hP' : P msgKexinit) (hR : R .kexInitFailed) :
    Keeps I (handleKexInit E p) := by
  have hfinish : Keeps I (handleKexInit.finish E) := by
    refine .bind (hI.updateKx _) fun _ => .bind (hI.negotiate hP) fun ret => ?_
    refine .ite (fun _ => .pure _) fun _ => .bind (hI.set fun _ => ?_) fun _ => .pure _
    exact ⟨rfl, rfl, rfl, id⟩
  refine .bind keeps_conn fun c => .ite (fun _ => hI.fail hP _ _) fun _ => ?_
  refine .bind (hI.call _ rfl) fun ok => .ite (fun _ => ?_) fun _ => ?_
  · exact .bind (hI.updateKx _) fun _ => hI.fail hP _ _
  · refine .bind (hI.updateKx _) fun _ => .ite (fun _ => ?_) fun _ => hfinish
    refine .bind (hI.sendKexInit hP' hR) fun ret => ?_
    exact .ite (fun _ => .pure _) fun _ => hfinish

theorem curveExchange (qc : Bytes) : Keeps I (curveExchange E qc) := by
  refine .bind (hI.call _ rfl) fun mine => ?_
  cases mine with
  | none => exact .pure _
  | some mine =>
      refine .bind (hI.call _ rfl) fun _ => .ite (fun _ => .pure _) fun _ => ?_
      refine .bind (hI.call _ rfl) fun _ => .ite (fun _ => .pure _) fun _ => ?_
      refine .bind (hI.call _ rfl) fun _ => .ite (fun _ => .pure _) fun _ => ?_
      exact .ite (fun _ => .pure _) fun _ => .pure _

theorem applyNewKeys (hP : P msgDisconnect) : Keeps I (applyNewKeys E) := by
  refine .bind (hI.call _ rfl) fun ok => .ite (fun _ => hI.fail hP _ _) fun _ => ?_
  refine .bind (hI.set fun c => ⟨rfl, rfl, rfl, fun _ => ?_⟩) fun _ => .pure _
  rintro hclosed
  simp_all

theorem applyRequest (type : Bytes) (rest : RBuf) : Keeps I (applyRequest type rest) := by
  refine .ite (fun _ => ?_) fun _ => .ite (fun _ => ?_) fun _ => .ite (fun _ => ?_) fun _ => .pure _
  · exact .ite (fun _ => .pure _) fun _ => .bind (hI.updateChan _) fun _ => .pure _
  · exact .bind (hI.updateChan _) fun _ => .pure _
  · exact .ite (fun _ => .pure _) fun _ => .bind (hI.updateChan _) fun _ => .pure _

theorem handleChannelData (hP : P msgDisconnect) (hR : ∀ d c, R (.received d c)) :
    Keeps I (handleChannelData E p) := by
  refine .bind keeps_conn fun c => .ite (fun _ => hI.fail hP _ _) fun _ => ?_
  refine .ite (fun _ => hI.fail hP _ _) fun _ => .bind (hI.event fun _ => hR _ _) fun _ => ?_
  exact .bind (hI.set fun _ => ⟨rfl, rfl, rfl, id⟩) fun _ => .pure _

theorem handleWindowAdjust (hR : ∀ n, R (.adjusted n)) : Keeps I (handleWindowAdjust p) := by
  refine .ite (fun _ => .pure _) fun _ => .bind (hI.updateChan _) fun _ => ?_
  exact .bind (hI.event fun _ => hR _) fun _ => .pure _

theorem handleChannelClose (hP : P msgChannelClose) : Keeps I (handleChannelClose E) := by
  refine .bind (hI.updateChan _) fun _ => .bind keeps_conn fun c => ?_
  refine .ite (fun _ => ?_) fun _ => .pure _
  exact .bind (hI.updateChan _) fun _ => .bind (hI.sendChannelReply hP) fun _ => .pure _

end SendInvariant

namespace HandlerInvariant

variable {R : Event → Prop} (hI : HandlerInvariant E R I)

include hI

theorem fail (reason : UInt32) (msg : String) : Keeps I (fail E reason msg) :=
  hI.toSendInvariant.fail (by decide) reason msg

/-! ## Key exchange -/

theorem doKexDh (hR : ∀ x c, R (.exchange x c)) : Keeps I (doKexDh E p) := by
  refine .ite (fun _ => hI.fail _ _) fun _ => ?_
  refine .bind (hI.toSendInvariant.curveExchange _) fun keys => ?_
  split
  swap
  · exact hI.fail _ _
  refine .ite (fun _ => hI.fail _ _) fun _ => .bind keeps_conn fun c => ?_
  refine .bind (keeps_deref _) fun client => .bind (keeps_deref _) fun server => ?_
  refine .bind (hI.event fun _ => hR _ _) fun _ => .bind (hI.updateKx _) fun _ => ?_
  refine .bind (hI.call _ rfl) fun ok => .ite (fun _ => hI.fail _ _) fun _ => ?_
  refine hI.switch _ _ _ ?_
  rw [msgOf_kexdhReplyPayload]
  decide

/-! ## Authentication -/

theorem sendAuthFailure : Keeps I (sendAuthFailure E) :=
  hI.send (by rw [msgOf_authFailurePayload]; decide)

/-- The callback is asked about an open connection only. -/
theorem checkPassword (hR : ∀ u w ok c, R (.auth u w ok c)) (pw : Bytes) {l : Link} (hl : I l)
    (hopen : l.conn.state ≠ .closed) :
    wp (checkPassword E pw) (fun _ l' => I l') anyFault l := by
  simp only [EfiSshServer.checkPassword, callAuth, wp_bind, LinkM.wp_conn, LinkM.wp_ask,
    LinkM.wp_record, wp_pure]
  have hcalled : I { l with
      calls := .auth (cString l.conn.login.user) (cString pw) :: l.calls } := hI.ask hl rfl
  have hasked := hI.record (e := .auth (cString l.conn.login.user) (cString pw)
    (E.auth l.calls (cString l.conn.login.user) (cString pw)) l.conn) hcalled
    (hR _ _ _ _)
  refine wp.ite (fun _ => ?_) fun _ => ?_
  · simp only [wp_bind, LinkM.wp_update]
    refine hI.send ?_ _ (hI.update hasked ⟨rfl, rfl, rfl, fun _ => hopen⟩)
    rw [msgOf_authSuccessPayload]
    decide
  · simp only [wp_bind, LinkM.wp_update, LinkM.wp_conn]
    have hcounted := hI.update hasked (c := { l.conn with login :=
      { l.conn.login with authTries := l.conn.login.authTries + 1 } }) ⟨rfl, rfl, rfl, id⟩
    exact wp.ite (fun _ => hI.fail _ _ _ hcounted) fun _ => hI.sendAuthFailure _ hcounted

theorem handleUserauth (hR : ∀ u w ok c, R (.auth u w ok c)) {l : Link} (hl : I l)
    (hopen : l.conn.state ≠ .closed) :
    wp (handleUserauth E p) (fun _ l' => I l') anyFault l := by
  simp only [EfiSshServer.handleUserauth, wp_bind, wp_ite, LinkM.wp_update]
  refine ⟨fun _ => hI.fail _ _ _ hl, fun _ => ⟨fun _ => hI.fail _ _ _ hl, fun _ => ?_⟩⟩
  have hnamed := fun user => hI.update hl
    (c := { l.conn with login := { l.conn.login with user := user } }) ⟨rfl, rfl, rfl, id⟩
  refine ⟨fun _ => hI.sendAuthFailure _ (hnamed _), fun _ => ?_⟩
  refine ⟨fun _ => hI.sendAuthFailure _ (hnamed _), fun _ => ?_⟩
  exact ⟨fun _ => hI.sendAuthFailure _ (hnamed _), fun _ =>
    hI.checkPassword hR _ (hnamed _) hopen⟩

/-! ## The channel -/

theorem handleChannelOpen (hR : ∀ w m, R (.opened w m)) : Keeps I (handleChannelOpen E p) := by
  refine .ite (fun _ => hI.fail _ _) fun _ => .bind keeps_conn fun c => ?_
  refine .ite (fun _ => ?_) fun _ => hI.send ?_
  · refine .bind (hI.updateChan _) fun _ => .bind (hI.event fun _ => hR _ _) fun _ => hI.send ?_
    rw [msgOf_openConfirmPayload]
    decide
  · rw [msgOf_openFailurePayload]
    decide

theorem handleChannelRequest : Keeps I (handleChannelRequest E p) := by
  refine .bind keeps_conn fun c => .ite (fun _ => hI.fail _ _) fun _ => ?_
  refine .bind (hI.toSendInvariant.applyRequest _ _) fun ok => .ite (fun _ => ?_) fun _ => .pure _
  refine hI.sendChannelReply ?_
  cases ok <;> decide

/-! ## `HandlePacket` -/

theorem handleServiceRequest : Keeps I (handleServiceRequest E p) := by
  refine .bind keeps_conn fun c => .ite (fun _ => hI.fail _ _) fun _ => ?_
  refine .ite (fun _ => hI.fail _ _) fun _ => hI.send ?_
  rw [msgOf_serviceAcceptPayload]
  decide

theorem handleGlobalRequest : Keeps I (handleGlobalRequest E p) := by
  refine .ite (fun _ => hI.send ?_) fun _ => .pure _
  rw [msgOf_requestFailurePayload]
  decide

/-- Each handler keeps the assertion whose events are in `R`. -/
theorem handleMessage {msg : UInt8} (hkexinit : R .kexInitFailed)
    (hkexdh : msg = msgKexdhInit → ∀ x c, R (.exchange x c))
    (hauth : msg = msgUserauthRequest → ∀ u w ok c, R (.auth u w ok c))
    (hbrought : msg ∈ bringingMessages → ∀ e : Event, e.isBrought = true → R e) :
    Keeps I (handleMessage E msg p) := by
  intro l hl
  simp only [EfiSshServer.handleMessage, wp_bind, LinkM.wp_conn]
  have hfail := fun reason msg => hI.fail reason msg l hl
  refine wp.ite (fun _ => hI.close l hl) fun _ => ?_
  refine wp.ite (fun _ => hl) fun _ => ?_
  have hsend := hI.toSendInvariant
  refine wp.ite (fun _ => hsend.handleKexInit (by decide) (by decide) hkexinit l hl) fun _ => ?_
  refine wp.ite (fun hmsg => wp.ite (fun _ => hfail _ _) fun _ =>
    hI.doKexDh (hkexdh hmsg) l hl) fun _ => ?_
  refine wp.ite (fun _ => wp.ite (fun _ => hfail _ _) fun _ =>
    hsend.applyNewKeys (by decide) l hl) fun _ => ?_
  refine wp.ite (fun _ => hI.handleServiceRequest l hl) fun _ => ?_
  refine wp.ite (fun hmsg => ?_) fun _ => ?_
  · refine wp.ite (fun _ => hl) fun _ => wp.ite (fun _ => hfail _ _) fun hstate => ?_
    refine hI.handleUserauth (hauth hmsg) hl ?_
    rw [not_not.mp hstate]
    decide
  refine wp.ite (fun _ => hI.handleGlobalRequest l hl) fun _ => ?_
  refine wp.ite (fun hmsg => ?_) fun _ => ?_
  · refine wp.ite (fun _ => hfail _ _) fun _ => hI.handleChannelOpen (fun _ _ => ?_) l hl
    exact hbrought (by rw [hmsg]; decide) _ rfl
  refine wp.ite (fun _ => ?_) fun _ => ?_
  · exact wp.ite (fun _ => hfail _ _) fun _ => hI.handleChannelRequest l hl
  refine wp.ite (fun hmsg => ?_) fun _ => wp.ite (fun _ => hl) fun _ => ?_
  · refine hsend.handleChannelData (by decide) (fun _ _ => ?_) l hl
    exact hbrought (by rw [hmsg]; decide) _ rfl
  refine wp.ite (fun hmsg => ?_) fun _ => ?_
  · exact hsend.handleWindowAdjust (fun _ => hbrought (by rw [hmsg]; decide) _ rfl) l hl
  refine wp.ite (fun _ => Keeps.bind (hI.updateChan _) (fun _ => .pure _) l hl) fun _ => ?_
  refine wp.ite (fun _ => hsend.handleChannelClose (by decide) l hl) fun _ => ?_
  refine hI.send ?_ l hl
  rw [msgOf_unimplementedPayload]
  decide

theorem handlePacket (hR : ∀ e : Event, e.isHandled = true → R e)
    (hR' : ∀ e : Event, e.isBrought = true → R e) : Keeps I (handlePacket E p) := by
  cases p with
  | nil => exact hI.fail _ _
  | cons msg rest =>
      refine .bind keeps_conn fun c => .ite (fun _ => ?_) fun _ => .ite (fun _ => hI.fail _ _) ?_
      · exact .bind (hI.updateKx _) fun _ => .pure _
      · exact fun _ => hI.handleMessage (hR _ rfl) (fun _ _ _ => hR _ rfl)
          (fun _ _ _ _ _ => hR _ rfl) fun _ => hR'

end HandlerInvariant

/-! ## Assertions about the log alone -/

section Log

variable {P : UInt8 → Prop} {R : Event → Prop} {J : List Event → Prop}

/-- An assertion about the log that the events in `R` keep, those of the sends among them. -/
theorem sendInvariant_of_log (hJ : ∀ {e log}, R e → J log → J (e :: log))
    (hsent : ∀ p c, R (.sent p c)) (hfailed : ∀ p c, R (.sendFailed p c)) :
    SendInvariant E P R fun l => J l.log where
  update hl _ := hl
  ask hl _ := hl
  record hl he := hJ he hl
  send _ l hl := wp.imp (sendPacket_emits E _ l anyFault) fun _ _ h => by
    rcases h.log_eq with ⟨-, hlog⟩ | ⟨-, hlog⟩ <;> rw [hlog]
    · exact hJ (hsent _ _) hl
    · exact hJ (hfailed _ _) hl

/-- An assertion that all sends keep, and the switch of the keys as such. -/
theorem handlerInvariant_of_sends (hI : SendInvariant E (fun _ => True) R I)
    (hset : ∀ {l} (derive : Char → ℕ → Bytes), I l → I { l with conn := l.conn.switched derive }) :
    HandlerInvariant E R I := by
  refine ⟨⟨hI.update, hI.ask, hI.record, fun _ => hI.send trivial⟩, ?_⟩
  intro reply sessionId kMp h _
  exact hI.switchKeys (J := I) trivial
    (fun {l} hl => wp.imp (hI.send trivial l hl) fun _ _ h => ⟨fun _ => h, fun _ => h⟩)
    (fun hl _ => hI.ask hl rfl) (fun derive hl => hset derive (hI.ask hl rfl)) sessionId kMp h
    trivial

theorem handlerInvariant_of_log (hJ : ∀ {e log}, R e → J log → J (e :: log))
    (hsent : ∀ p c, R (.sent p c)) (hfailed : ∀ p c, R (.sendFailed p c)) :
    HandlerInvariant E R fun l => J l.log :=
  handlerInvariant_of_sends (sendInvariant_of_log hJ hsent hfailed) fun _ hl => hl

theorem sendVersion_keeps_log (hJ : ∀ {line log}, J log → J (.versionSent line :: log)) :
    Keeps (fun l : Link => J l.log) (sendVersion E) := by
  refine .bind keeps_conn fun c => .ite (fun _ => .pure _) fun _ => ?_
  refine .bind (fun _ hl => hl) fun ok => .ite (fun _ => .bind (fun _ hl => hl) fun _ => .pure _)
    fun _ => ?_
  exact .bind (fun _ hl => hJ hl) fun _ => .bind (fun _ hl => hl) fun _ => .pure _

end Log

namespace LinkInvariant

variable (hI : LinkInvariant E I)

include hI

theorem dispatch (payload packet mac : Bytes) :
    Keeps I (dispatch (EfiSshServer.handlePacket E) payload packet mac) := by
  intro l hl
  simp only [EfiSshServer.dispatch, wp_bind, LinkM.wp_update, LinkM.wp_record]
  have hhandled : ∀ e : Event, e.isHandled = true → e.isPacket = false := fun e he => by
    cases e <;> first | rfl | cases he
  have hbrought : ∀ e : Event, e.isBrought = true → e.isPacket = false := fun e he => by
    cases e <;> first | rfl | cases he
  exact hI.handlePacket hhandled hbrought _ (hI.arrive payload packet mac hl)

/-- What the parts of the packet layer keep, the dispatch of a packet keeps. -/
theorem dispatchInvariant : DispatchInvariant E I where
  update := hI.update
  ask := hI.ask
  record hl he := hI.record hl (by cases ‹Event› <;> first | rfl | cases he)
  take hl he := hI.record hl (by cases ‹Event› <;> first | rfl | cases he)
  send hp := hI.send fun heq => by simp [heq] at hp; revert hp; decide
  dispatch := hI.dispatch
  version := hI.version

end LinkInvariant

namespace ServeInvariant

variable (hI : ServeInvariant E I)

include hI

/-! ## The receiver -/

theorem fail (reason : UInt32) (msg : String) : Keeps I (fail E reason msg) :=
  hI.toSendInvariant.fail (by decide) reason msg

theorem afterLine : Keeps I (afterLine E) :=
  .bind keeps_conn fun _ => .ite (fun _ =>
    .bind (hI.toSendInvariant.sendKexInit (by decide) rfl) fun _ =>
      .ite (fun _ => .pure _) fun _ => .pure _) fun _ => .pure _

/-- Only the version exchange can accept a version. -/
theorem tryVersionLine {r : Receiver} (hr : I r.link) (hopen : r.link.conn.state ≠ .closed) :
    wp (tryVersionLine E) (fun _ r' => I r'.link) anyFault r := by
  simp only [EfiSshServer.tryVersionLine, wp_bind, RecvM.wp_rx]
  have hfail := fun msg => keeps_onLink (hI.fail discProtocolError msg) r hr
  have hafter : ∀ n, Keeps (fun r : Receiver => I r.link) (do
      RecvM.compact n
      RecvM.onLink (EfiSshServer.afterLine E)) := fun n =>
    .bind (keeps_compact n) fun _ => keeps_onLink hI.afterLine
  refine wp.ite (fun _ => wp.ite (fun _ => hfail _) fun _ => hr) fun _ => ?_
  refine wp.ite (fun _ => wp.ite (fun _ => hfail _) fun _ => ?_) fun _ => hafter _ r hr
  rw [wp_bind, RecvM.wp_onLink]
  simp only [storeVersion]
  refine wp.ite (fun _ => trivial) fun _ => ?_
  exact hafter _ _ (hI.update hr ⟨rfl, rfl, rfl, fun _ => hopen⟩)

theorem decryptAt (off len : ℕ) :
    Keeps (fun r : Receiver => I r.link) (decryptAt E off len) := by
  have hdecipher : ∀ data, Keeps I (decipher E data) := fun data => by
    refine .bind (hI.call _ rfl) fun _ => .ite (fun _ => .pure _) fun _ => ?_
    exact .bind keeps_conn fun _ => .bind (hI.set fun _ => ⟨rfl, rfl, rfl, id⟩) fun _ => .pure _
  refine .bind (keeps_slice off len) fun data => ?_
  refine .bind (keeps_onLink (hdecipher data)) fun plain => ?_
  cases plain with
  | none => exact .pure _
  | some plain => exact .bind (keeps_setRx _) fun _ => .pure _

theorem readHeader : Keeps (fun r : Receiver => I r.link) (readHeader E) := by
  have hcheck : ∀ d, Keeps (fun r : Receiver => I r.link) (checkLength E d) := fun d => by
    refine .bind (keeps_slice 0 4) fun _ => .bind (keeps_setRx _) fun _ => ?_
    refine .ite (fun _ => keeps_onLink (hI.fail _ _)) fun _ => ?_
    exact .bind (keeps_setRx _) fun _ => .pure _
  refine .bind keeps_rx fun x => .bind keeps_recvConn fun c => .ite (fun _ => .pure _) fun _ => ?_
  refine .ite (fun _ => .pure _) fun _ => .ite (fun _ => ?_) fun _ => hcheck _
  refine .bind (hI.decryptAt 0 16) fun _ => .ite (fun _ => ?_) fun _ => hcheck _
  exact keeps_onLink (hI.fail _ _)

theorem checkMac (d : Dir) (total : ℕ) :
    Keeps (fun r : Receiver => I r.link) (checkMac E d total) := by
  have hcompare : ∀ packet mac, Keeps I (compareMac E packet mac) := fun packet mac => by
    refine .bind (hI.call _ rfl) fun _ => .ite (fun _ => hI.fail _ _) fun _ => ?_
    exact .bind keeps_conn fun _ => .ite (fun _ => hI.fail _ _) fun _ => .pure _
  have hpacket : Keeps (fun r : Receiver => I r.link) (checkPacketMac E d total) :=
    .bind (keeps_slice _ _) fun _ => .bind (keeps_slice _ _) fun _ => keeps_onLink (hcompare _ _)
  refine .ite (fun _ => ?_) fun _ => hpacket
  refine .bind (hI.decryptAt _ _) fun _ => .ite (fun _ => ?_) fun _ => hpacket
  exact keeps_onLink (hI.fail _ _)

theorem finishPacket (total need : ℕ) : Keeps (fun r : Receiver => I r.link)
    (finishPacket E (EfiSshServer.handlePacket E) total need) := by
  refine .bind keeps_rx fun x => .bind (keeps_slice _ _) fun _ => ?_
  refine .ite (fun _ => keeps_onLink (hI.fail _ _)) fun _ => ?_
  refine .bind (keeps_slice _ _) fun _ => .bind (keeps_slice _ _) fun _ => ?_
  refine .bind (keeps_slice _ _) fun _ => .bind (keeps_onLink (hI.dispatch _ _ _)) fun _ => ?_
  refine .bind (keeps_compact _) fun _ => .bind (keeps_setRx _) fun _ => ?_
  exact .bind keeps_recvConn fun _ => .ite (fun _ => .pure _) fun _ => .pure _

theorem tryPacket : Keeps (fun r : Receiver => I r.link)
    (tryPacket E (EfiSshServer.handlePacket E)) := by
  refine .bind hI.readHeader fun _ => .ite (fun _ => .pure _) fun _ => ?_
  refine .bind keeps_recvConn fun _ => .bind keeps_rx fun _ => .ite (fun _ => .pure _) fun _ => ?_
  refine .ite (fun _ => ?_) fun _ => hI.finishPacket _ _
  exact .bind (hI.checkMac _ _) fun _ => .ite (fun _ => .pure _) fun _ => hI.finishPacket _ _

theorem tryProcessOne : Keeps (fun r : Receiver => I r.link) (tryProcessOne E) := by
  intro r hr
  simp only [EfiSshServer.tryProcessOne, tryProcessOneWith, wp_bind, RecvM.wp_conn]
  refine wp.ite (fun _ => hr) fun _ => wp.ite (fun hstate => ?_) fun _ => hI.tryPacket r hr
  refine hI.tryVersionLine hr ?_
  rw [hstate]
  decide

/-! ## The API -/

theorem writeChunk (buf : Bytes) : Keeps I (writeChunk E buf) := by
  refine .bind keeps_conn fun c => .ite (fun _ => .pure _) fun _ => ?_
  refine .ite (fun _ => .pure _) fun _ => .bind (hI.send ?_) fun _ => ?_
  · rw [msgOf_channelDataPayload]
    decide
  · exact .ite (fun _ => .pure _) fun _ => .bind (hI.updateChan _) fun _ => .pure _

theorem startClose (exitStatus : UInt32) : Keeps I (startClose E exitStatus) := by
  refine .bind (hI.event fun _ => rfl) fun _ => .bind keeps_conn fun _ => ?_
  refine .bind (hI.send ?_) fun _ => .bind (hI.sendChannelReply (by decide)) fun _ => ?_
  · rw [msgOf_exitStatusPayload]
    decide
  · exact .bind (hI.sendChannelReply (by decide)) fun _ => hI.updateChan _

theorem apiPart {c : Conn} {α : Type} {m : LinkM α} (h : ApiPart E c m) : Keeps I m := by
  cases h with
  | clock => exact hI.call _ rfl
  | timeout =>
      have hpassed : ∀ start limit, Keeps I (wallClockPassed E start limit) := fun _ _ =>
        .bind (hI.call _ rfl) fun _ => .pure _
      refine .ite (fun _ => .bind (hpassed _ _) fun _ => ?_) fun _ => .pure _
      exact .ite (fun _ => .pure _) fun _ => .pure _
  | version => exact hI.version
  | accepted => exact hI.event fun _ => rfl
  | disconnect => exact hI.toSendInvariant.disconnect (by decide) _ _
  | write buf => exact hI.writeChunk buf
  | startClose exitStatus => exact hI.startClose exitStatus
  | endSession =>
      exact .bind keeps_conn fun _ => .ite (fun _ => .pure _) fun _ =>
        hI.toSendInvariant.disconnect (by decide) _ _

/-- Every call but `SshRead` keeps the assertion. -/
theorem unreadInvariant : UnreadInvariant E anyFault fun s => I s.link where
  input hs := by
    refine processInput_keeps (fun s hs => ?_) (fun s hs => hI.tryProcessOne s.toReceiver hs) hs
    simp only [receive, wp_bind, wp_onRecv, RecvM.wp_rx]
    refine wp.ite (fun _ => ?_) fun _ => hs
    simp only [wp_bind]
    refine wp.imp (rd_frame _) fun b s₁ heq => ?_
    rw [← heq] at hs
    split
    · simp only [wp_bind, ServerM.wp_onLink]
      exact hI.close _ hs
    · exact hs
  part h hs := by
    rw [ServerM.wp_onLink]
    exact hI.apiPart h _ hs

end ServeInvariant

namespace DispatchInvariant

variable (hI : DispatchInvariant E I)

include hI

theorem takeInput (max : ℕ) : Keeps I (takeInput E max) := by
  have htaken : ∀ {e : Conn → Event}, (∀ c, (e c).isTaken = true) → Keeps I (LinkM.record e) :=
    fun he _ hl => hI.take hl (he _)
  have hcredit : Keeps I (returnCredit E) := by
    refine .bind keeps_conn fun c => .ite (fun _ => ?_) fun _ => .pure _
    refine .bind (hI.send ?_) fun _ => .ite (fun _ => ?_) fun _ => .pure _
    · rw [msgOf_windowAdjustPayload]
      decide
    · exact hI.set fun _ => ⟨rfl, rfl, rfl, id⟩
  refine .bind keeps_conn fun c => .ite (fun _ => .ite (fun _ => ?_) fun _ => .pure _) fun _ => ?_
  · exact .bind (htaken fun _ => rfl) fun _ => .pure _
  · refine .bind (htaken fun _ => rfl) fun _ => .bind (hI.set fun _ => ?_) fun _ => ?_
    · exact ⟨rfl, rfl, rfl, id⟩
    · exact .bind hcredit fun _ => .pure _

/-- The assertion holds along every run. -/
theorem partInvariant : PartInvariant E anyFault fun s => I s.link where
  toUnreadInvariant := hI.unreadInvariant
  take max hs := by
    rw [ServerM.wp_onLink]
    exact hI.takeInput max _ hs

end DispatchInvariant

end EfiSshServer
