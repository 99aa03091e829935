import EfiSshServer.LinkInvariant

/-!
# What a result of -1 says about the connection

`SshPoll` promises -1 once the connection is closed.  A handler that fails goes through
`Disconnect` and closes the connection first, with one exception: when `SendPacket` or
`SendKexInit` fails before it reaches the transport (the RNG, the HMAC, the cipher or
the allocator refuses), it returns -1 from an open connection, and the handler passes
that on.  Such a send is recorded as given up (`Event.gaveUp`), it is the last thing
that happens in its call, and the refusal is the last answer the call got (`LastRefused`).

`poll_end` is the promise where the last request of the poll was not refused; a closed
connection stays closed and sends nothing more (`Runs.silent`).
-/

namespace EfiSshServer

open StateProgram

variable {E : Env} {l l' l'' : Link} {p : Bytes} {ret : Int} {log log' log'' : List Event}
  {calls calls' calls'' : List Call} {s t u : Session}

/-! ## Sends that are given up -/

/-- A send that failed with the connection open, its result passed on: `Disconnect` and
the answer to a `CHANNEL_CLOSE` drop theirs. -/
def Event.gaveUp : Event → Bool
  | .sendFailed p c => c.state ≠ .closed && msgOf p ≠ msgDisconnect && msgOf p ≠ msgChannelClose
  | .kexInitFailed => true
  | _ => false

/-- The newest event since `log` is a send that was given up. -/
def GaveUp (log log' : List Event) : Prop :=
  ∃ e es, log' = e :: (es ++ log) ∧ e.gaveUp = true

theorem GaveUp.of_suffix (hgrown : log <:+ log') (h : GaveUp log' log'') : GaveUp log log'' := by
  obtain ⟨es, rfl⟩ := hgrown
  obtain ⟨e, es', heq, he⟩ := h
  exact ⟨e, es' ++ es, by rw [heq, List.append_assoc], he⟩

/-! ## Refusals -/

/-- The RNG, the HMAC, the cipher or the allocator refused the call. -/
def Call.Refused (E : Env) (older : List Call) : Call → Prop
  | .random n => E.random older n = none
  | .hmac => E.hmacOk older = false
  | .aes => E.aesOk older = false
  | .alloc n => E.alloc older n = false
  | _ => False

/-- The newest call since `calls` was refused. -/
def LastRefused (E : Env) (calls calls' : List Call) : Prop :=
  ∃ call older, calls' = call :: older ∧ calls <:+ older ∧ call.Refused E older

theorem LastRefused.of_suffix (hgrown : calls <:+ calls') (h : LastRefused E calls' calls'') :
    LastRefused E calls calls'' := by
  obtain ⟨call, older, heq, hsuffix, hrefused⟩ := h
  exact ⟨call, older, heq, hgrown.trans hsuffix, hrefused⟩

/-- Calls are only added. -/
theorem sendPacket_grows (base : List Call) (p : Bytes) :
    Keeps (fun l : Link => base <:+ l.calls) (sendPacket E p) := by
  have hask : ∀ {α : Type} (call : Call) (answer : List Call → α),
      Keeps (fun l : Link => base <:+ l.calls) (LinkM.ask call answer) :=
    fun call _ _ hl => hl.trans (List.suffix_cons call _)
  have htransmit : ∀ frame, Keeps (fun l : Link => base <:+ l.calls)
      (framePacket.transmit E frame) := fun frame =>
    .bind (hask _ _) fun _ => .ite (fun _ => .pure _) fun _ =>
      .bind (fun _ hl => hl) fun _ => .pure _
  refine .bind keeps_conn fun c => .bind ?_ fun ret => .bind (fun _ hl => hl) fun _ => .pure _
  refine .bind keeps_conn fun c => .ite (fun _ => .pure _) fun _ => .bind (hask _ _) fun pad => ?_
  cases pad with
  | none => exact .pure _
  | some pad =>
      refine .ite (fun _ => .bind (hask _ _) fun _ => .ite (fun _ => .pure _) fun _ => ?_) fun _ =>
        .bind (fun _ hl => hl) fun _ => htransmit _
      exact .bind (hask _ _) fun _ => .ite (fun _ => .pure _) fun _ =>
        .bind (fun _ hl => hl) fun _ => htransmit _

theorem grows (E : Env) (base : List Call) :
    SendInvariant E (fun _ => True) (fun _ => True) (fun l => base <:+ l.calls) where
  update hl _ := hl
  ask hl _ := hl.trans (List.suffix_cons _ _)
  record hl _ := hl
  send _ := sendPacket_grows base _

/-- A packet of the right size fails on an open connection only with a refusal. -/
theorem sendPacket_refused (hlen : p.length + 64 ≤ sshMaxPacket) :
    wp (sendPacket E p) (fun ret l' => ret ≠ 0 → l'.conn.state ≠ .closed →
      LastRefused E l.calls l'.calls) anyFault l := by
  simp only [sendPacket, framePacket, framePacket.transmit, wp_bind, LinkM.wp_conn,
    LinkM.wp_record, wp_pure, wp_ite, LinkM.wp_ask]
  refine ⟨fun hno _ hopen => ?_, fun _ => ?_⟩
  · exact absurd (hno.resolve_right (Nat.not_lt.mpr hlen)) hopen
  split
  · simp only [wp_ite, wp_bind, LinkM.wp_ask, wp_pure, LinkM.wp_update]
    refine ⟨fun _ => ⟨fun hhmac _ _ => ?_, fun _ => ⟨fun haes _ _ => ?_, fun _ => ?_⟩⟩, fun _ => ?_⟩
    · exact ⟨_, _, rfl, List.suffix_cons _ _, by simpa [Call.Refused] using hhmac⟩
    · refine ⟨_, _, rfl, (List.suffix_cons _ _).trans (List.suffix_cons _ _), ?_⟩
      simpa [Call.Refused] using haes
    · exact ⟨fun _ h => absurd rfl h, fun _ _ h => absurd rfl h⟩
    · exact ⟨fun _ h => absurd rfl h, fun _ _ h => absurd rfl h⟩
  · next hnone =>
      exact fun _ _ => ⟨_, _, rfl, List.suffix_rfl, Option.eq_none_iff_forall_ne_some.mpr hnone⟩

/-! ## Outcomes -/

/-- Where a result of -1 leaves the connection, by what was recorded and called before. -/
def Ended (E : Env) (log : List Event) (calls : List Call) (l' : Link) : Prop :=
  l'.conn.state = .closed ∨ GaveUp log l'.log ∧ LastRefused E calls l'.calls

/-- More is recorded and called. -/
structure Passed (log : List Event) (calls : List Call) (l' : Link) : Prop where
  grown : log <:+ l'.log
  asked : calls <:+ l'.calls

/-- The outcomes of a handler. -/
def Ends (E : Env) (log : List Event) (calls : List Call) (ret : Int) (l' : Link) : Prop :=
  (ret = -1 ∧ Ended E log calls l') ∨ (0 ≤ ret ∧ Passed log calls l')

theorem Passed.refl (l : Link) : Passed l.log l.calls l := ⟨List.suffix_rfl, List.suffix_rfl⟩

theorem Passed.trans (h : Passed log calls l') (h' : Passed l'.log l'.calls l'') :
    Passed log calls l'' :=
  ⟨h.grown.trans h'.grown, h.asked.trans h'.asked⟩

theorem Passed.ended (h : Passed log calls l') (h' : Ended E l'.log l'.calls l'') :
    Ended E log calls l'' :=
  h'.imp_right fun h' => ⟨h'.1.of_suffix h.grown, h'.2.of_suffix h.asked⟩

theorem Passed.ends (h : Passed log calls l') (h' : Ends E l'.log l'.calls ret l'') :
    Ends E log calls ret l'' :=
  h'.imp (fun h' => ⟨h'.1, h.ended h'.2⟩) fun h' => ⟨h'.1, h.trans h'.2⟩

theorem Ends.returned (h : Passed log calls l') : Ends E log calls 0 l' :=
  .inr ⟨Int.le_refl 0, h⟩

theorem Ends.ended (h : Ends E log calls ret l') (hret : ret ≠ 0) (hrange : ret = 0 ∨ ret = -1) :
    Ended E log calls l' := by
  rcases h with ⟨-, h⟩ | ⟨hpos, -⟩
  · exact h
  · rw [hrange.resolve_left hret] at hpos
    exact absurd hpos (by decide)

theorem Ends.passed (h : Ends E log calls 0 l') : Passed log calls l' := by
  rcases h with ⟨hzero, -⟩ | ⟨-, h⟩
  · cases hzero
  · exact h

/-! ## Sending -/

theorem Emits.range (h : Emits p s ret t) : ret = 0 ∨ ret = -1 := by
  cases h with
  | sent => exact .inl rfl
  | refused | lost => exact .inr rfl

theorem Emits.state_eq (h : Emits p s 0 t) : t.conn.state = s.conn.state := by
  cases h
  rfl

theorem Emits.grown (h : Emits p s ret t) : s.log <:+ t.log := by
  rcases h.log_eq with ⟨-, hlog⟩ | ⟨-, hlog⟩ <;> exact hlog ▸ List.suffix_cons _ _

/-- The outcomes of a send whose result is passed on. -/
structure SendEnds (E : Env) (l : Link) (ret : Int) (l' : Link) : Prop where
  ends : Ends E l.log l.calls ret l'
  range : ret = 0 ∨ ret = -1
  state_eq : ret = 0 → l'.conn.state = l.conn.state

theorem sendPacket_ends (hmsg : msgOf p ≠ msgDisconnect ∧ msgOf p ≠ msgChannelClose)
    (hlen : p.length + 64 ≤ sshMaxPacket) :
    wp (sendPacket E p) (SendEnds E l) anyFault l := by
  refine wp.imp (wp.and (wp.and (sendPacket_emits E p l anyFault) (sendPacket_refused hlen))
    (sendPacket_grows l.calls p l List.suffix_rfl)) fun ret l' h => ?_
  obtain ⟨⟨hemits, hrefused⟩, hcalls⟩ := h
  refine ⟨?_, hemits.range, fun hret => ?_⟩
  · rcases hemits.range with rfl | rfl
    · exact .inr ⟨Int.le_refl 0, hemits.grown, hcalls⟩
    refine .inl ⟨rfl, or_iff_not_imp_left.mpr fun hclosed => ⟨?_, hrefused (by decide) hclosed⟩⟩
    rcases hemits.log_eq with ⟨hzero, -⟩ | ⟨-, hlog⟩
    · cases hzero
    · exact ⟨_, [], hlog, by simp [Event.gaveUp, hclosed, hmsg]⟩
  · rw [hret] at hemits
    exact hemits.state_eq

theorem fail_ends (reason : UInt32) (msg : String) :
    wp (fail E reason msg) (fun ret l' => Ends E l.log l.calls ret l') anyFault l :=
  wp.imp (fail_farewell reason msg) fun _ _ h => .inl ⟨h.1, .inl h.2.closed⟩

theorem send_ends (hmsg : msgOf p ≠ msgDisconnect ∧ msgOf p ≠ msgChannelClose)
    (hlen : p.length + 64 ≤ sshMaxPacket) :
    wp (sendPacket E p) (fun ret l' => Ends E l.log l.calls ret l') anyFault l :=
  wp.imp (sendPacket_ends hmsg hlen) fun _ _ h => h.ends

/-! ### Sizes -/

theorem WBuf.length_wBytes_add (b : WBuf) (x : Bytes) :
    (b.wBytes x).data.length ≤ b.data.length + x.length := by
  unfold WBuf.wBytes
  repeat' split
  · omega
  · exact Nat.le_add_right _ _
  · exact Nat.le_add_right _ _
  · exact List.length_append.le

theorem WBuf.length_wCStr_add (b : WBuf) (s : String) :
    (b.wCStr s).data.length ≤ b.data.length + 4 + (ascii s).length :=
  (length_wBytes_add _ _).trans (Nat.add_le_add_right (length_wBytes_add _ _) _)

theorem openFailurePayload_fits (sender : UInt32) (chanOpen : Bool) :
    (openFailurePayload sender chanOpen).length + 64 ≤ sshMaxPacket := by
  have hend : ∀ (reason : UInt32) (s : String), (ascii s).length ≤ 100 →
      (((((wInit sshPlBuf).wByte msgChannelOpenFailure).wU32 sender).wU32 reason).wCStr s |>.wCStr
        "").data.length + 64 ≤ sshMaxPacket := by
    intro reason s hs
    have hstart : ((((wInit sshPlBuf).wByte msgChannelOpenFailure).wU32 sender).wU32
        reason).data.length = 9 := rfl
    have hempty : (ascii "").length = 0 := rfl
    have h₁ := WBuf.length_wCStr_add ((((wInit sshPlBuf).wByte msgChannelOpenFailure).wU32
      sender).wU32 reason) s
    have h₂ := WBuf.length_wCStr_add (((((wInit sshPlBuf).wByte msgChannelOpenFailure).wU32
      sender).wU32 reason).wCStr s) ""
    simp only [sshMaxPacket]
    omega
  rw [openFailurePayload]
  cases chanOpen
  · simp only [Bool.false_eq_true, if_false]
    exact hend 3 _ (by decide)
  · simp only [if_true]
    exact hend 4 _ (by decide)
/-! ## The handlers -/

/-- Any program of the link that sends nothing but through `SendPacket` only adds calls. -/
theorem wp_grows {α : Type} {m : LinkM α} {post : α → Link → Prop}
    (hgrows : ∀ base, Keeps (fun l : Link => base <:+ l.calls) m)
    (hpost : wp m (fun a l' => l.calls <:+ l'.calls → post a l') anyFault l) :
    wp m post anyFault l :=
  wp.imp (wp.and hpost (hgrows l.calls l List.suffix_rfl)) fun _ _ h => h.1 h.2

theorem checkPassword_ends (pw : Bytes) :
    wp (checkPassword E pw) (fun ret l' => Ends E l.log l.calls ret l') anyFault l := by
  simp only [checkPassword, callAuth, sendAuthFailure, wp_bind, LinkM.wp_conn, LinkM.wp_ask,
    LinkM.wp_record, wp_pure]
  have hasked : ∀ (c : Conn) (call : Call) (e : Event),
      Passed l.log l.calls ⟨⟨c, e :: l.log⟩, call :: l.calls⟩ :=
    fun c call e => ⟨List.suffix_cons _ _, List.suffix_cons _ _⟩
  refine wp.ite (fun _ => ?_) fun _ => ?_
  · simp only [wp_bind, LinkM.wp_update]
    refine wp.imp (send_ends ?_ (by decide)) fun _ _ h => (hasked _ _ _).ends h
    rw [msgOf_authSuccessPayload]
    decide
  · simp only [wp_bind, LinkM.wp_update, LinkM.wp_conn]
    refine wp.ite (fun _ => ?_) fun _ => ?_
    · exact wp.imp (fail_ends _ _) fun _ _ h => (hasked _ _ _).ends h
    · refine wp.imp (send_ends ?_ (by decide)) fun _ _ h => (hasked _ _ _).ends h
      rw [msgOf_authFailurePayload]
      decide

theorem handleUserauth_ends :
    wp (handleUserauth E p) (fun ret l' => Ends E l.log l.calls ret l') anyFault l := by
  have hfailure : ∀ c : Conn, wp (sendPacket E authFailurePayload)
      (fun ret l' => Ends E l.log l.calls ret l') anyFault { l with conn := c } :=
    fun c => send_ends (l := { l with conn := c })
      (by rw [msgOf_authFailurePayload]; decide) (by decide)
  simp only [handleUserauth, sendAuthFailure, wp_bind, wp_ite, LinkM.wp_update]
  refine ⟨fun _ => fail_ends _ _, fun _ => ⟨fun _ => fail_ends _ _, fun _ => ?_⟩⟩
  refine ⟨fun _ => hfailure _, fun _ => ⟨fun _ => hfailure _, fun _ =>
    ⟨fun _ => hfailure _, fun _ => checkPassword_ends _⟩⟩⟩

theorem sendKexInit_ends :
    wp (sendKexInit E) (SendEnds E l) anyFault l := by
  have hnone : ∀ (c : Conn) (call : Call) (older : List Call), l.calls <:+ older →
      call.Refused E older →
      SendEnds E l (-1) ⟨⟨c, .kexInitFailed :: l.log⟩, call :: older⟩ := by
    intro c call older holder hrefused
    refine ⟨.inl ⟨rfl, .inr ⟨⟨_, [], rfl, rfl⟩, ?_⟩⟩, .inr rfl, fun h => absurd h (by decide)⟩
    exact ⟨call, older, rfl, holder, hrefused⟩
  simp only [sendKexInit, sendKexInit.noKexInit, wp_bind, LinkM.wp_ask]
  split
  · next cookie hcookie =>
      have hfits := kexInitPayload_fits cookie.toList_length
      simp only [wp_bind, wp_ite, LinkM.wp_ask, LinkM.wp_update, LinkM.wp_record, wp_pure]
      refine ⟨fun herr => ?_, fun _ => ⟨fun halloc => ?_, fun _ => ?_⟩⟩
      · rw [hfits.1] at herr
        cases herr
      · refine hnone _ _ _ (List.suffix_cons _ _) ?_
        simpa [Call.Refused] using halloc
      · have hasked : ∀ (c : Conn) (call call' : Call),
            Passed l.log l.calls ⟨⟨c, l.log⟩, call' :: call :: l.calls⟩ := fun _ _ _ =>
          ⟨List.suffix_rfl, (List.suffix_cons _ _).trans (List.suffix_cons _ _)⟩
        refine wp.imp (sendPacket_ends ?_ hfits.2) fun ret l' h =>
          ⟨(hasked _ _ _).ends h.ends, h.range, h.state_eq⟩
        rw [msgOf_kexInitPayload]
        decide
  · next hcookie =>
      refine hnone _ _ _ List.suffix_rfl ?_
      exact Option.eq_none_iff_forall_ne_some.mpr hcookie

/-- `Negotiate` records nothing but its farewell. -/
theorem Negotiates.log_eq (h : Negotiates s ret t) (hret : ret = 0) : t.log = s.log := by
  obtain ⟨k, -, -, ⟨-, -, rfl⟩ | ⟨hfailed, -⟩⟩ := h
  · rfl
  · exact absurd hret hfailed

theorem Negotiates.ended (h : Negotiates s ret l'.toSession) (hret : ret ≠ 0) :
    Ended E s.log calls l' := by
  obtain ⟨k, -, -, ⟨hzero, -⟩ | ⟨-, -, hend⟩⟩ := h
  · exact absurd hzero hret
  · exact .inl hend.closed

theorem finish_ends (hclient : l.conn.kx.clientKexInit ≠ none) :
    wp (handleKexInit.finish E) (fun ret l' => Ends E l.log l.calls ret l') anyFault l := by
  simp only [handleKexInit.finish, updateKx, wp_bind, LinkM.wp_update]
  refine wp_grows (fun base => (grows E base).negotiate trivial) ?_
  refine wp.imp (negotiate_spec (E := E) hclient) fun ret l' h hgrown => ?_
  refine wp.ite (fun hret => .inl ⟨rfl, h.ended hret⟩) fun hret => ?_
  simp only [wp_bind, LinkM.wp_update, wp_pure]
  exact .returned ⟨(h.log_eq (not_not.mp hret)).symm ▸ List.suffix_rfl, hgrown⟩

theorem sendKexInit_clientKexInit (hnew : l.conn.kx.kexInitSent = false) :
    wp (sendKexInit E) (fun ret l' => ret = 0 →
      l'.conn.kx.clientKexInit = l.conn.kx.clientKexInit) anyFault l :=
  wp.imp (sendKexInit_spec hnew) fun _ _ h hret => (h.2 hret).clientKexInit

theorem handleKexInit_ends :
    wp (handleKexInit E p) (fun ret l' => Ends E l.log l.calls ret l') anyFault l := by
  simp only [handleKexInit, updateKx, wp_bind, LinkM.wp_conn]
  refine wp.ite (fun _ => fail_ends _ _) fun _ => ?_
  simp only [wp_bind, LinkM.wp_ask]
  have hasked : ∀ (c : Conn) (call : Call),
      Passed l.log l.calls ⟨⟨c, l.log⟩, call :: l.calls⟩ :=
    fun c call => ⟨List.suffix_rfl, List.suffix_cons _ _⟩
  refine wp.ite (fun _ => ?_) fun _ => ?_
  · simp only [wp_bind, LinkM.wp_update]
    exact wp.imp (fail_ends _ _) fun _ _ h => (hasked _ _).ends h
  simp only [wp_bind, LinkM.wp_update]
  refine wp.ite (fun hnew => ?_) fun _ => ?_
  swap
  · exact wp.imp (finish_ends (Option.some_ne_none p)) fun _ _ h => (hasked _ _).ends h
  simp only [wp_bind]
  refine wp.imp (wp.and sendKexInit_ends (sendKexInit_clientKexInit ?_)) ?_
  · exact hnew
  rintro ret l₁ ⟨h, hclient⟩
  refine wp.ite (fun hret => .inl ⟨rfl, (hasked _ _).ended (h.ends.ended hret h.range)⟩)
    fun hret => ?_
  obtain rfl := not_not.mp hret
  refine wp.imp (finish_ends ?_) fun _ _ h' =>
    ((hasked _ _).trans h.ends.passed).ends h'
  rw [hclient rfl]
  exact Option.some_ne_none p

theorem switchKeys_ends {reply : WBuf} (sessionId kMp h : Bytes) (hfits : reply.err = false)
    (hlen : reply.data.length + 64 ≤ sshMaxPacket) (hmsg : msgOf reply.data = msgKexdhReply)
    :
    wp (switchKeys E reply sessionId kMp h) (fun ret l' => Ends E l.log l.calls ret l')
      anyFault l := by
  simp only [switchKeys, hfits, wp_bind, Bool.false_eq_true, if_false]
  refine wp.imp (sendPacket_ends (by rw [hmsg]; decide) hlen) fun r l₁ h₁ => ?_
  refine wp.ite (fun hr => .inl ⟨rfl, h₁.ends.ended hr h₁.range⟩) fun hr => ?_
  obtain rfl := not_not.mp hr
  simp only [wp_bind]
  refine wp.imp (sendPacket_ends (by rw [msgOf_newkeysPayload]; decide) (by decide))
    fun r l₂ h₂ => ?_
  refine wp.ite (fun hr => .inl ⟨rfl, h₁.ends.passed.ended (h₂.ends.ended hr h₂.range)⟩)
    fun hr => ?_
  obtain rfl := not_not.mp hr
  have hpassed := h₁.ends.passed.trans h₂.ends.passed
  simp only [wp_bind, LinkM.wp_ask]
  have hasked : ∀ c : Conn,
      Passed l.log l.calls ⟨⟨c, l₂.log⟩, .aesSetKey :: l₂.calls⟩ :=
    fun c => hpassed.trans (⟨List.suffix_rfl, List.suffix_cons _ _⟩)
  refine wp.ite (fun _ => ?_) fun _ => .returned (hasked _)
  exact wp.imp (fail_ends _ _) fun _ _ h' => (hasked _).ends h'

theorem doKexDh_ends :
    wp (doKexDh E p) (fun ret l' => Ends E l.log l.calls ret l') anyFault l := by
  simp only [doKexDh, updateKx]
  refine wp.ite (fun _ => fail_ends _ _) fun _ => ?_
  simp only [wp_bind]
  refine wp_grows (fun base => (grows E base).curveExchange _) ?_
  refine wp.imp (curveExchange_spec _) fun keys l₁ h₁ hgrown => ?_
  obtain ⟨hsame, hagreed⟩ := h₁
  have hlog : l₁.log = l.log := congrArg Session.log hsame
  have hpassed : Passed l.log l.calls l₁ := ⟨hlog ▸ List.suffix_rfl, hgrown⟩
  have hfail : ∀ reason msg, wp (fail E reason msg)
      (fun ret l' => Ends E l.log l.calls ret l') anyFault l₁ :=
    fun reason msg => wp.imp (fail_ends reason msg) fun _ _ h => hpassed.ends h
  split
  · next qs k =>
      refine wp.ite (fun _ => hfail _ _) fun _ => ?_
      simp only [wp_bind, LinkM.wp_conn, LinkM.wp_deref, LinkM.wp_record, LinkM.wp_update,
        LinkM.wp_ask]
      refine ⟨fun _ _ => ⟨fun _ _ => ?_, fun _ => trivial⟩, fun _ => trivial⟩
      have hsigned : ∀ (c : Conn) (e : Event),
          Passed l.log l.calls ⟨⟨c, e :: l₁.log⟩, .ed25519Sign :: l₁.calls⟩ :=
        fun c e => hpassed.trans ⟨List.suffix_cons _ _, List.suffix_cons _ _⟩
      refine wp.ite (fun _ => ?_) fun hsig => ?_
      · exact wp.imp (fail_ends _ _) fun _ _ h => (hsigned _ _).ends h
      obtain ⟨mine, rfl, -⟩ := hagreed _ _ rfl
      have hpublic : (E.curvePublic mine).toList.length = 32 := by simp
      have hreply := length_kexdhReplyPayload (length_hostKeyBlob_le l₁.conn.hostPub) hpublic
        (not_not.mp (not_or.mp hsig).2)
      exact wp.imp (switchKeys_ends _ _ _ hreply.1 hreply.2 (msgOf_kexdhReplyPayload _ _ _))
        fun _ _ h => (hsigned _ _).ends h
  · exact hfail _ _

theorem applyNewKeys_ends :
    wp (applyNewKeys E) (fun ret l' => Ends E l.log l.calls ret l') anyFault l := by
  simp only [applyNewKeys, wp_bind, LinkM.wp_ask]
  have hasked : ∀ c : Conn, Passed l.log l.calls ⟨⟨c, l.log⟩, .aesSetKey :: l.calls⟩ :=
    fun c => ⟨List.suffix_rfl, List.suffix_cons _ _⟩
  refine wp.ite (fun _ => ?_) fun _ => .returned (hasked _)
  exact wp.imp (fail_ends _ _) fun _ _ h => (hasked _).ends h

theorem handleServiceRequest_ends :
    wp (handleServiceRequest E p) (fun ret l' => Ends E l.log l.calls ret l') anyFault l := by
  simp only [handleServiceRequest, wp_bind, LinkM.wp_conn]
  refine wp.ite (fun _ => fail_ends _ _) fun _ => wp.ite (fun _ => fail_ends _ _) fun _ => ?_
  refine send_ends ?_ (by decide)
  rw [msgOf_serviceAcceptPayload]
  decide

theorem handleGlobalRequest_ends :
    wp (handleGlobalRequest E p) (fun ret l' => Ends E l.log l.calls ret l') anyFault l := by
  refine wp.ite (fun _ => send_ends ?_ (by decide)) fun _ => .returned (.refl _)
  rw [msgOf_requestFailurePayload]
  decide

theorem handleChannelOpen_ends :
    wp (handleChannelOpen E p) (fun ret l' => Ends E l.log l.calls ret l') anyFault l := by
  simp only [handleChannelOpen, updateChan]
  refine wp.ite (fun _ => fail_ends _ _) fun _ => ?_
  simp only [wp_bind, LinkM.wp_conn]
  refine wp.ite (fun _ => ?_) fun _ => send_ends ?_ (openFailurePayload_fits _ _)
  · simp only [wp_bind, LinkM.wp_update, LinkM.wp_record]
    have hopened : ∀ (c : Conn) (e : Event), Passed l.log l.calls ⟨⟨c, e :: l.log⟩, l.calls⟩ :=
      fun c e => ⟨List.suffix_cons _ _, List.suffix_rfl⟩
    refine wp.imp (send_ends ?_ (Nat.le_of_ble_eq_true rfl)) fun _ _ h =>
      (hopened _ _).ends h
    rw [msgOf_openConfirmPayload]
    decide
  · rw [msgOf_openFailurePayload]
    decide

theorem applyRequest_kept (type : Bytes) (rest : RBuf) :
    wp (applyRequest type rest) (fun _ l' => (l'.log = l.log ∧ l'.calls = l.calls) ∧
      l'.conn.state = l.conn.state) anyFault l := by
  simp only [applyRequest, updateChan, wp_ite, wp_bind, LinkM.wp_update, wp_pure, and_self,
    implies_true]

theorem handleChannelRequest_ends :
    wp (handleChannelRequest E p) (fun ret l' => Ends E l.log l.calls ret l') anyFault l := by
  simp only [handleChannelRequest, sendChannelReply, wp_bind, LinkM.wp_conn]
  refine wp.ite (fun _ => fail_ends _ _) fun _ => ?_
  simp only [wp_bind]
  refine wp.imp (applyRequest_kept _ _) fun ok l₁ h₁ => ?_
  obtain ⟨⟨hlog, hcalls⟩, hstate⟩ := h₁
  rw [← hlog, ← hcalls]
  refine wp.ite (fun _ => ?_) fun _ => .returned (.refl _)
  simp only [wp_bind, LinkM.wp_conn]
  refine send_ends ?_ (Nat.le_of_ble_eq_true rfl)
  rw [msgOf_channelReplyPayload]
  split <;> decide

theorem handleChannelData_ends :
    wp (handleChannelData E p) (fun ret l' => Ends E l.log l.calls ret l') anyFault l := by
  simp only [handleChannelData, wp_bind, LinkM.wp_conn]
  refine wp.ite (fun _ => fail_ends _ _) fun _ => wp.ite (fun _ => fail_ends _ _) fun _ => ?_
  exact .returned ⟨List.suffix_cons _ _, List.suffix_rfl⟩

theorem handleWindowAdjust_ends :
    wp (handleWindowAdjust p) (fun ret l' => Ends E l.log l.calls ret l') anyFault l := by
  refine wp.ite (fun _ => .returned (.refl _)) fun _ => ?_
  exact .returned ⟨List.suffix_cons _ _, List.suffix_rfl⟩

theorem handleChannelClose_ends :
    wp (handleChannelClose E) (fun ret l' => Ends E l.log l.calls ret l') anyFault l := by
  simp only [handleChannelClose, sendChannelReply, updateChan, wp_bind, LinkM.wp_update,
    LinkM.wp_conn]
  refine wp.ite (fun _ => ?_) fun _ => .returned (⟨List.suffix_rfl, List.suffix_rfl⟩)
  simp only [wp_bind, LinkM.wp_update, LinkM.wp_conn, wp_pure]
  refine wp_grows (fun base => sendPacket_grows base _) ?_
  refine wp.imp (sendPacket_emits E _ _ anyFault) fun _ _ h hgrown => ?_
  exact .returned ⟨h.grown, hgrown⟩

theorem handleMessage_ends (msg : UInt8) :
    wp (handleMessage E msg p) (fun ret l' => Ends E l.log l.calls ret l') anyFault l := by
  simp only [handleMessage, updateChan, wp_bind, LinkM.wp_conn]
  refine wp.ite (fun _ => .inl ⟨rfl, .inl rfl⟩) fun _ => ?_
  refine wp.ite (fun _ => .returned (.refl _)) fun _ => ?_
  refine wp.ite (fun _ => handleKexInit_ends) fun _ => ?_
  refine wp.ite (fun _ => ?_) fun _ => ?_
  · exact wp.ite (fun _ => fail_ends _ _) fun _ => doKexDh_ends
  refine wp.ite (fun _ => ?_) fun _ => ?_
  · exact wp.ite (fun _ => fail_ends _ _) fun _ => applyNewKeys_ends
  refine wp.ite (fun _ => handleServiceRequest_ends) fun _ => ?_
  refine wp.ite (fun _ => ?_) fun _ => ?_
  · refine wp.ite (fun _ => .returned (.refl _)) fun _ => ?_
    exact wp.ite (fun _ => fail_ends _ _) fun _ => handleUserauth_ends
  refine wp.ite (fun _ => handleGlobalRequest_ends) fun _ => ?_
  refine wp.ite (fun _ => ?_) fun _ => ?_
  · exact wp.ite (fun _ => fail_ends _ _) fun _ => handleChannelOpen_ends
  refine wp.ite (fun _ => ?_) fun _ => ?_
  · exact wp.ite (fun _ => fail_ends _ _) fun _ => handleChannelRequest_ends
  refine wp.ite (fun _ => handleChannelData_ends) fun _ => ?_
  refine wp.ite (fun _ => .returned (.refl _)) fun _ => ?_
  refine wp.ite (fun _ => handleWindowAdjust_ends) fun _ => ?_
  refine wp.ite (fun _ => .returned (⟨List.suffix_rfl, List.suffix_rfl⟩)) fun _ => ?_
  refine wp.ite (fun _ => handleChannelClose_ends) fun _ => ?_
  refine send_ends ?_ (Nat.le_of_ble_eq_true rfl)
  rw [msgOf_unimplementedPayload]
  decide

theorem handlePacket_ends :
    wp (handlePacket E p) (fun ret l' => Ends E l.log l.calls ret l') anyFault l := by
  unfold handlePacket
  split
  · exact fail_ends _ _
  · simp only [updateKx, wp_bind, LinkM.wp_conn]
    refine wp.ite (fun _ => .returned (⟨List.suffix_rfl, List.suffix_rfl⟩)) fun _ => ?_
    exact wp.ite (fun _ => fail_ends _ _) fun _ => handleMessage_ends _

/-! ## `TryProcessOne` -/

open RecvM

variable {r r' : Receiver}

/-- The outcomes of `TryProcessOne` and of a poll. -/
def Stops (E : Env) (log : List Event) (calls : List Call) (ret : Int) (l' : Link) : Prop :=
  (ret = -1 ∧ Ended E log calls l') ∨ (0 ≤ ret ∧ Passed log calls l' ∧ l'.conn.state ≠ .closed)

/-- Nothing is recorded and the state is the same. -/
structure Kept (r r' : Receiver) : Prop where
  log : r'.link.log = r.link.log
  asked : r.link.calls <:+ r'.link.calls
  state : r'.link.conn.state = r.link.conn.state

theorem Kept.refl (r : Receiver) : Kept r r := ⟨rfl, List.suffix_rfl, rfl⟩

theorem Kept.passed (h : Kept r r') : Passed r.link.log r.link.calls r'.link :=
  ⟨h.log ▸ List.suffix_rfl, h.asked⟩

theorem fail_ended (reason : UInt32) (msg : String) :
    wp (onLink (fail E reason msg))
      (fun ret r' => ret = -1 ∧ Ended E r.link.log r.link.calls r'.link) anyFault r := by
  rw [wp_onLink]
  exact wp.imp (fail_farewell reason msg) fun _ _ h => ⟨h.1, .inl h.2.closed⟩

/-- A failure behind a part that recorded nothing. -/
theorem Kept.fail_ended (h : Kept r r') (reason : UInt32) (msg : String) :
    wp (onLink (fail E reason msg))
      (fun ret r'' => ret = -1 ∧ Ended E r.link.log r.link.calls r''.link) anyFault r' :=
  wp.imp (EfiSshServer.fail_ended reason msg) fun _ _ h' => ⟨h'.1, h.passed.ended h'.2⟩

theorem afterLine_stops (hopen : l.conn.state ≠ .closed) :
    wp (afterLine E) (fun ret l' => Stops E l.log l.calls ret l') anyFault l := by
  simp only [afterLine, wp_bind, LinkM.wp_conn]
  refine wp.ite (fun _ => ?_) fun _ => .inr ⟨by decide, .refl _, hopen⟩
  simp only [wp_bind]
  refine wp.imp (sendKexInit_ends) fun ret l' h => ?_
  refine wp.ite (fun hret => .inl ⟨rfl, h.ends.ended hret h.range⟩) fun hret => ?_
  obtain rfl := not_not.mp hret
  exact .inr ⟨by decide, h.ends.passed, h.state_eq rfl ▸ hopen⟩

theorem wp_compact_any {n : ℕ} {post : Unit → Receiver → Prop}
    (h : post () { r with rx := { r.rx with buf := r.rx.buf.drop n } }) :
    wp (compact n) post anyFault r := by
  by_cases hn : n ≤ r.rx.buf.length
  · simpa only [wp, compact, hn, if_true] using h
  · simp [wp, compact, hn, anyFault]

theorem tryVersionLine_stops (hopen : r.link.conn.state ≠ .closed) :
    wp (tryVersionLine E) (fun ret r' => Stops E r.link.log r.link.calls ret r'.link)
      anyFault r := by
  simp only [tryVersionLine, wp_bind, wp_rx]
  refine wp.ite (fun _ => ?_) fun _ => ?_
  · refine wp.ite (fun _ => ?_) fun _ => .inr ⟨Int.le_refl 0, .refl _, hopen⟩
    exact wp.imp (fail_ended _ _) fun _ _ h => .inl h
  refine wp.ite (fun _ => ?_) fun _ => ?_
  · refine wp.ite (fun _ => wp.imp (fail_ended _ _) fun _ _ h => .inl h) fun _ => ?_
    simp only [storeVersion, wp_bind, wp_onLink, LinkM.wp_update, wp_ite, wp_throw]
    refine ⟨fun _ => trivial, fun _ => wp_compact_any ?_⟩
    exact wp.imp (afterLine_stops (by simp)) fun _ _ h => h
  · simp only [wp_bind]
    refine wp_compact_any ?_
    rw [wp_onLink]
    exact wp.imp (afterLine_stops hopen) fun _ _ h => h

theorem decryptAt_kept (off len : ℕ) :
    wp (decryptAt E off len) (fun _ r' => Kept r r') anyFault r := by
  simp only [decryptAt, decipher, wp_bind, wp_onLink]
  refine wp_slice_any ?_
  simp only [LinkM.wp_ask]
  refine wp.ite (fun _ => ⟨rfl, List.suffix_cons _ _, rfl⟩) fun _ => ?_
  simp only [wp_bind, LinkM.wp_conn, LinkM.wp_update, wp_pure, wp_setRx]
  exact ⟨rfl, List.suffix_cons _ _, rfl⟩

/-- The outcomes of reading a header: a disconnect, or nothing is recorded. -/
def HeaderStops (E : Env) (r : Receiver) (ret : Int) (r' : Receiver) : Prop :=
  (ret = -1 ∧ Ended E r.link.log r.link.calls r'.link) ∨ ((ret = 0 ∨ ret = 1) ∧ Kept r r')

theorem checkLength_stops (d : Dir) (h : Kept r r') :
    wp (checkLength E d) (HeaderStops E r) anyFault r' := by
  simp only [checkLength, wp_bind]
  refine wp_slice_any ?_
  simp only [wp_setRx]
  refine wp.ite (fun _ => ?_) fun _ => .inr ⟨.inr rfl, h.log, h.asked, h.state⟩
  have hkept : ∀ rx : Rx, Kept r { r' with rx := rx } := fun _ => ⟨h.log, h.asked, h.state⟩
  exact wp.imp ((hkept _).fail_ended _ _) fun _ _ h' => .inl h'

theorem readHeader_stops : wp (readHeader E) (HeaderStops E r) anyFault r := by
  simp only [readHeader, parseHeader, wp_bind, wp_rx, wp_conn]
  refine wp.ite (fun _ => .inr ⟨.inr rfl, .refl _⟩) fun _ => ?_
  refine wp.ite (fun _ => .inr ⟨.inl rfl, .refl _⟩) fun _ => ?_
  refine wp.ite (fun _ => ?_) fun _ => checkLength_stops _ (.refl _)
  simp only [wp_bind]
  refine wp.imp (decryptAt_kept (E := E) _ _) fun ok r₁ h => ?_
  exact wp.ite (fun _ => wp.imp (h.fail_ended _ _) fun _ _ h' => .inl h') fun _ =>
    checkLength_stops _ h

theorem compareMac_kept (packet mac : Bytes) :
    wp (compareMac E packet mac) (fun ret l' => (ret ≠ 0 → Ended E l.log l.calls l') ∧
      (ret = 0 → l'.toSession = l.toSession ∧ l.calls <:+ l'.calls)) anyFault l := by
  have hfail : ∀ (msg : String), wp (fail E discMacError msg)
      (fun ret l' => (ret ≠ 0 → Ended E l.log l.calls l') ∧
        (ret = 0 → l'.toSession = l.toSession ∧ l.calls <:+ l'.calls)) anyFault
      { l with calls := .hmac :: l.calls } :=
    fun msg => wp.imp (fail_farewell _ _) fun _ _ h =>
      ⟨fun _ => .inl h.2.closed, fun hret => absurd (h.1.symm.trans hret) (by decide)⟩
  simp only [compareMac, wp_bind, LinkM.wp_ask]
  refine wp.ite (fun _ => hfail _) fun _ => ?_
  simp only [wp_bind, LinkM.wp_conn]
  exact wp.ite (fun _ => hfail _) fun _ =>
    ⟨fun h => absurd rfl h, fun _ => ⟨rfl, List.suffix_cons _ _⟩⟩

theorem checkPacketMac_kept (d : Dir) (total : ℕ) (h : Kept r r') :
    wp (checkPacketMac E d total) (fun ret r'' =>
      (ret ≠ 0 → Ended E r.link.log r.link.calls r''.link) ∧ (ret = 0 → Kept r r''))
      anyFault r' := by
  simp only [checkPacketMac, wp_bind, wp_onLink]
  refine wp_slice_any (wp_slice_any (wp.imp (compareMac_kept _ _) fun ret l' h' => ?_))
  refine ⟨fun hret => h.passed.ended (h'.1 hret), fun hret => ?_⟩
  obtain ⟨hsame, hasked⟩ := h'.2 hret
  exact ⟨(congrArg Session.log hsame).trans h.log, h.asked.trans hasked,
    (congrArg (fun t => t.conn.state) hsame).trans h.state⟩

theorem checkMac_kept (d : Dir) (total : ℕ) :
    wp (checkMac E d total) (fun ret r' =>
      (ret ≠ 0 → Ended E r.link.log r.link.calls r'.link) ∧ (ret = 0 → Kept r r'))
      anyFault r := by
  simp only [checkMac]
  refine wp.ite (fun _ => ?_) fun _ => checkPacketMac_kept d total (.refl _)
  simp only [wp_bind]
  refine wp.imp (decryptAt_kept (E := E) _ _) fun ok r₁ h => ?_
  refine wp.ite (fun _ => wp.imp (h.fail_ended _ _) fun _ _ h' => ?_) fun _ =>
    checkPacketMac_kept d total h
  exact ⟨fun _ => h'.2, fun hret => absurd (h'.1.symm.trans hret) (by decide)⟩

theorem dispatch_ends (payload packet mac : Bytes) :
    wp (dispatch (handlePacket E) payload packet mac)
      (fun ret l' => Ends E l.log l.calls ret l') anyFault l := by
  simp only [dispatch, wp_bind, LinkM.wp_update, LinkM.wp_record]
  have hcounted : ∀ (c : Conn) (e : Event), Passed l.log l.calls ⟨⟨c, e :: l.log⟩, l.calls⟩ :=
    fun c e => ⟨List.suffix_cons _ _, List.suffix_rfl⟩
  exact wp.imp handlePacket_ends fun _ _ h => (hcounted _ _).ends h

theorem finishPacket_stops (total need : ℕ) :
    wp (finishPacket E (handlePacket E) total need)
      (fun ret r' => Stops E r.link.log r.link.calls ret r'.link) anyFault r := by
  simp only [finishPacket, wp_bind, wp_rx]
  refine wp_slice_any (wp.ite (fun _ => ?_) fun _ => ?_)
  · exact wp.imp (fail_ended _ _) fun _ _ h => .inl h
  simp only [wp_bind, wp_onLink]
  refine wp_slice_any (wp_slice_any (wp_slice_any ?_))
  refine wp.imp (dispatch_ends _ _ _) fun ret l' h => wp_compact_any ?_
  simp only [wp_setRx, wp_conn]
  refine wp.ite (fun hstop => .inl ⟨rfl, ?_⟩) fun hgo => ?_
  · rcases h with ⟨-, h⟩ | ⟨hpos, h⟩
    · exact h
    · exact .inl (hstop.resolve_left (Int.not_lt.mpr hpos))
  · rw [not_or, Int.not_lt] at hgo
    rcases h with ⟨hneg, -⟩ | ⟨-, h⟩
    · rw [hneg] at hgo
      exact absurd hgo.1 (by decide)
    · exact .inr ⟨by decide, h, hgo.2⟩

theorem Passed.stops (h : Passed log calls l') (h' : Stops E l'.log l'.calls ret l'') :
    Stops E log calls ret l'' :=
  h'.imp (fun h' => ⟨h'.1, h.ended h'.2⟩) fun h' => ⟨h'.1, h.trans h'.2.1, h'.2.2⟩

theorem tryBody_stops (hopen : r.link.conn.state ≠ .closed) :
    wp (tryBody E (handlePacket E))
      (fun ret r' => Stops E r.link.log r.link.calls ret r'.link) anyFault r := by
  simp only [tryBody, completePacket, wp_bind, wp_conn, wp_rx]
  refine wp.ite (fun _ => .inr ⟨Int.le_refl 0, .refl _, hopen⟩) fun _ => ?_
  refine wp.ite (fun _ => ?_) fun _ => finishPacket_stops _ _
  simp only [wp_bind]
  refine wp.imp (checkMac_kept (E := E) _ _) fun ret r₁ h => ?_
  refine wp.ite (fun hret => .inl ⟨rfl, h.1 hret⟩) fun hret => ?_
  have hkept := h.2 (not_not.mp hret)
  exact wp.imp (finishPacket_stops _ _) fun _ _ h' => hkept.passed.stops h'

theorem tryProcessOne_stops :
    wp (tryProcessOne E) (fun ret r' => Stops E r.link.log r.link.calls ret r'.link)
      anyFault r := by
  simp only [tryProcessOne, tryProcessOneWith, tryPacket, wp_bind, wp_conn]
  refine wp.ite (fun hclosed => .inl ⟨rfl, .inl hclosed⟩) fun hopen => ?_
  refine wp.ite (fun _ => tryVersionLine_stops hopen) fun _ => ?_
  simp only [wp_bind]
  refine wp.imp (readHeader_stops (E := E)) fun header r₁ h => ?_
  refine wp.ite (fun hone => ?_) fun hone => ?_
  · rcases h with h | ⟨hzero | hheader, hkept⟩
    · exact .inl h
    · exact .inr ⟨hzero ▸ Int.le_refl 0, hkept.passed, hkept.state ▸ hopen⟩
    · exact absurd hheader hone
  · rcases h with ⟨hneg, -⟩ | ⟨-, hkept⟩
    · rw [hneg] at hone
      exact absurd hone (by decide)
    · exact wp.imp (tryBody_stops (hkept.state ▸ hopen)) fun _ _ h' => hkept.passed.stops h'

/-! ## `ProcessInput` -/

variable {s s' : Server}

theorem processAll_stops (rounds : ℕ) (any : Bool) (hopen : r.link.conn.state ≠ .closed) :
    wp (processAll E rounds any) (fun out r' =>
      (out = none → Ended E r.link.log r.link.calls r'.link) ∧
      (out ≠ none → Passed r.link.log r.link.calls r'.link ∧ r'.link.conn.state ≠ .closed))
      anyFault r := by
  induction rounds generalizing r any with
  | zero => exact ⟨nofun, fun _ => ⟨.refl _, hopen⟩⟩
  | succ rounds ih =>
      simp only [processAll, wp_bind]
      refine wp.imp (tryProcessOne_stops (E := E)) fun ret r₁ h => ?_
      rcases h with ⟨rfl, hended⟩ | ⟨hpos, hpassed, hopen₁⟩
      · exact wp.ite (fun _ => ⟨fun _ => hended, fun h => absurd rfl h⟩) fun h =>
          absurd (show (-1 : Int) < 0 by decide) h
      · refine wp.ite (fun hneg => absurd hneg (Int.not_lt.mpr hpos)) fun _ => ?_
        refine wp.ite (fun _ => ⟨nofun, fun _ => ⟨hpassed, hopen₁⟩⟩) fun _ => ?_
        refine wp.imp (ih true hopen₁) fun out r₂ h₂ => ⟨fun hout => ?_, fun hout => ?_⟩
        · exact hpassed.ended (h₂.1 hout)
        · exact ⟨hpassed.trans (h₂.2 hout).1, (h₂.2 hout).2⟩

theorem receive_kept (hopen : s.link.conn.state ≠ .closed) :
    wp receive (fun out s' => (s'.link.log = s.link.log ∧ s'.link.calls = s.link.calls) ∧
      (out = none → s'.link.conn.state = .closed) ∧
      (out ≠ none → s'.link.conn.state ≠ .closed)) anyFault s := by
  simp only [receive, wp_bind, wp_onRecv, wp_rx]
  refine wp.ite (fun _ => ?_) fun _ => ⟨⟨rfl, rfl⟩, by simp, fun _ => hopen⟩
  simp only [wp_bind]
  refine wp.imp (rd_frame _) fun b s₁ heq => ?_
  rw [← heq] at hopen ⊢
  split
  · exact ⟨⟨rfl, rfl⟩, fun _ => rfl, fun h => absurd rfl h⟩
  · exact ⟨⟨rfl, rfl⟩, by simp, fun _ => hopen⟩

theorem processRounds_stops (rounds : ℕ) (progressed : Bool)
    (hopen : rounds = 0 → s.link.conn.state ≠ .closed) :
    wp (processRounds E rounds progressed)
      (fun out s' => Stops E s.link.log s.link.calls out.1 s'.link) anyFault s := by
  induction rounds generalizing s progressed with
  | zero => exact .inr ⟨Int.le_refl 0, .refl _, hopen rfl⟩
  | succ rounds ih =>
      simp only [processRounds, wp_bind, ServerM.wp_conn]
      refine wp.ite (fun hclosed => .inl ⟨rfl, .inl hclosed⟩) fun hopen => ?_
      simp only [wp_bind]
      refine wp.imp (receive_kept hopen) fun got s₁ h₁ => ?_
      obtain ⟨⟨hlog, hcalls⟩, hlost, hgot⟩ := h₁
      rw [← hlog, ← hcalls]
      split
      · have hopen₁ := hgot (Option.some_ne_none _)
        simp only [wp_bind, wp_onRecv, wp_rx]
        refine wp.imp (processAll_stops (E := E) _ _ hopen₁) fun any r₂ h₂ => ?_
        split
        · obtain ⟨hpassed, hopen₂⟩ := h₂.2 (Option.some_ne_none _)
          refine wp.ite (fun _ => ?_) fun _ => .inr ⟨Int.le_refl 0, hpassed, hopen₂⟩
          exact wp.imp (ih true fun _ => hopen₂) fun _ _ h₃ => hpassed.stops h₃
        · next hnone =>
            exact .inl ⟨rfl, h₂.1 (Option.eq_none_iff_forall_ne_some.mpr hnone)⟩
      · next hnone =>
          have hclosed := hlost (Option.eq_none_iff_forall_ne_some.mpr hnone)
          exact .inl ⟨rfl, .inl hclosed⟩

theorem processInput_stops :
    wp (processInput E) (fun out s' => Stops E s.link.log s.link.calls out.1 s'.link)
      anyFault s := by
  simp only [processInput, wp_bind, wp_get]
  exact processRounds_stops _ _ fun h => absurd h (Nat.succ_ne_zero _)

/-! ## A closed connection -/

/-- The version line of `SshAccept`, with its line end. -/
def versionLine : Bytes := ascii sshServerVersion ++ [cr, lf]

/-- The connection is closed and has written no packet since `s`.  `SshAccept` may still
write the version line if it never has. -/
def SilentSince (s t : Server) : Prop :=
  t.link.conn.state = .closed ∧ ∃ calls, t.link.calls = calls ++ s.link.calls ∧
    ∀ frame, Call.write frame ∈ calls → frame = versionLine

theorem SilentSince.refl (hclosed : s.link.conn.state = .closed) : SilentSince s s :=
  ⟨hclosed, [], rfl, by simp⟩

theorem SilentSince.trans {s'' : Server} (h : SilentSince s s') (h' : SilentSince s' s'') :
    SilentSince s s'' := by
  obtain ⟨-, calls, hcalls, hwrites⟩ := h
  obtain ⟨hclosed, calls', hcalls', hwrites'⟩ := h'
  refine ⟨hclosed, calls' ++ calls, by rw [hcalls', hcalls, List.append_assoc],
    fun frame hmem => ?_⟩
  exact (List.mem_append.mp hmem).elim (hwrites' frame) (hwrites frame)

/-- A program of the link that leaves the connection closed and makes these calls. -/
theorem SilentSince.of_calls {l' : Link} (calls : List Call) (hclosed : l'.conn.state = .closed)
    (hcalls : l'.calls = calls ++ s.link.calls)
    (hwrites : ∀ frame, Call.write frame ∈ calls → frame = versionLine) :
    SilentSince s { s with link := l' } :=
  ⟨hclosed, calls, hcalls, hwrites⟩

section Closed

variable (hclosed : s.link.conn.state = .closed)

include hclosed

theorem processInput_silent :
    wp (processInput E) (fun out s' => out = (-1, false) ∧ s' = s) anyFault s := by
  simp only [processInput, wp_bind, wp_get, inputBound, processRounds, ServerM.wp_conn]
  exact wp.ite (fun _ => ⟨rfl, rfl⟩) fun hopen => absurd hclosed hopen

theorem rtNow_silent :
    wp (ServerM.onLink (rtNow E)) (fun _ s' => SilentSince s s') anyFault s := by
  rw [ServerM.wp_onLink]
  exact SilentSince.of_calls [.clock] hclosed rfl (by simp)

theorem sendVersion_silent :
    wp (ServerM.onLink (sendVersion E)) (fun _ s' => SilentSince s s') anyFault s := by
  rw [ServerM.wp_onLink]
  simp only [sendVersion, wp_bind, LinkM.wp_conn]
  refine wp.ite (fun _ => .refl hclosed) fun _ => ?_
  simp only [wp_bind, LinkM.wp_ask]
  have hwrite : ∀ c : Conn, c.state = .closed → SilentSince s
      { s with link := { s.link with conn := c, calls := .write versionLine :: s.link.calls } } :=
    fun c hc => SilentSince.of_calls [.write versionLine] hc rfl (by simp)
  exact wp.ite (fun _ => hwrite _ rfl) fun _ => hwrite _ hclosed

theorem acceptRounds_silent (rounds start idle : ℕ) :
    wp (acceptRounds E rounds start idle) (fun _ s' => SilentSince s s') anyFault s := by
  cases rounds with
  | zero => exact .refl hclosed
  | succ rounds =>
      simp only [acceptRounds, wp_bind, ServerM.wp_conn]
      exact wp.ite (fun _ => .refl hclosed) fun hopen => absurd hclosed hopen

theorem takeInput_silent (max : ℕ) :
    wp (ServerM.onLink (takeInput E max)) (fun _ s' => SilentSince s s') anyFault s := by
  have hsend : ∀ c : Conn, c.state = .closed → canSendNow c = false := by
    intro c hc
    simp [canSendNow, hc]
  rw [ServerM.wp_onLink]
  simp only [takeInput, returnCredit, wp_bind, LinkM.wp_conn]
  refine wp.ite (fun _ => wp.ite (fun _ => ?_) fun _ => .refl hclosed) fun _ => ?_
  · exact SilentSince.of_calls [] hclosed rfl (by simp)
  simp only [wp_bind, LinkM.wp_record, LinkM.wp_update, LinkM.wp_conn]
  refine wp.ite (fun hcredit => ?_) fun _ => ?_
  · exact absurd (hcredit.2.symm.trans (hsend _ hclosed)) (by decide)
  · exact SilentSince.of_calls [] hclosed rfl (by simp)

theorem writeRounds_silent (rounds start waited : ℕ) (buf : Bytes) :
    wp (writeRounds E rounds start waited buf) (fun _ s' => SilentSince s s') anyFault s := by
  cases rounds with
  | zero => exact .refl hclosed
  | succ rounds =>
      simp only [writeRounds, wp_bind, ServerM.wp_conn]
      refine wp.ite (fun hwait => ?_) fun _ => ?_
      · simp [mustWait, hclosed] at hwait
      · simp only [wp_bind, ServerM.wp_onLink, writeChunk, LinkM.wp_conn]
        refine wp.ite (fun _ => .refl hclosed) fun hsend => ?_
        simp [canSendNow, hclosed] at hsend

/-- Every call leaves it closed and silent. -/
theorem runCall_silent (call : ApiCall) :
    wp (runCall E call) (fun _ s' => SilentSince s s') anyFault s := by
  cases call with
  | poll =>
      simp only [runCall, sshPoll, wp_bind]
      refine wp.imp (processInput_silent hclosed) fun _ s₁ h => ?_
      rw [h.2]
      exact .refl hclosed
  | accept rounds =>
      simp only [runCall, sshAccept, wp_bind]
      refine wp.imp (rtNow_silent hclosed) fun now s₁ h₁ => ?_
      refine wp.imp (sendVersion_silent h₁.1) fun ret s₂ h₂ => ?_
      refine wp.ite (fun _ => h₁.trans h₂) fun _ => ?_
      exact wp.imp (acceptRounds_silent h₂.1 _ _ _) fun _ _ h₃ => (h₁.trans h₂).trans h₃
  | read max =>
      simp only [runCall, sshRead, wp_bind]
      refine wp.imp (processInput_silent hclosed) fun _ s₁ h => ?_
      rw [h.2]
      exact takeInput_silent hclosed max
  | write rounds buf =>
      simp only [runCall, sshWrite, wp_bind]
      refine wp.ite (fun _ => .refl hclosed) fun _ => ?_
      simp only [wp_bind]
      refine wp.imp (rtNow_silent hclosed) fun now s₁ h₁ => ?_
      exact wp.imp (writeRounds_silent h₁.1 _ _ _ _) fun _ _ h₂ => h₁.trans h₂
  | close rounds exitStatus =>
      simp only [runCall, sshClose, endSession, wp_bind, ServerM.wp_conn]
      refine wp.ite (fun h => ?_) fun _ => ?_
      · rw [hclosed] at h
        cases h.1
      · simp only [wp_bind, ServerM.wp_onLink, LinkM.wp_conn]
        exact wp.ite (fun _ => .refl hclosed) fun hopen => absurd hclosed hopen

/-- No run of calls opens it again or writes a packet. -/
theorem Runs.silent (h : Runs E s s') : SilentSince s s' := by
  induction h with
  | none => exact .refl hclosed
  | call _ call hrun ih => exact ih.trans ((runCall_silent ih.1 call).ok hrun)

end Closed

/-! ## The result of a poll -/

/-- `SshPoll` returns -1 whenever the connection is closed; and it returns -1 only then, unless
the last thing it asked the platform for was refused.  A closed connection stays closed and
writes no packet. -/
theorem poll_end (hpoll : sshPoll E s = .ok (ret, s')) :
    (s'.link.conn.state = .closed → ret = -1) ∧
      (¬ LastRefused E s.link.calls s'.link.calls →
        (ret = -1 ↔ s'.link.conn.state = .closed)) ∧
      ∀ t t' : Server, Runs E s t → t.link.conn.state = .closed → Runs E t t' →
        SilentSince t t' := by
  have hstops : wp (sshPoll E) (fun ret s' => Stops E s.link.log s.link.calls ret s'.link)
      anyFault s := by
    simp only [sshPoll, wp_bind]
    exact processInput_stops
  have hret : s'.link.conn.state = .closed → ret = -1 := by
    intro hclosed
    rcases hstops.ok hpoll with ⟨hret, -⟩ | ⟨-, -, hopen⟩
    · exact hret
    · exact absurd hclosed hopen
  refine ⟨hret, fun hgranted => ⟨fun hneg => ?_, hret⟩,
    fun t t' _ hclosed hruns => hruns.silent hclosed⟩
  rcases hstops.ok hpoll with ⟨-, hended⟩ | ⟨hpos, -⟩
  · exact hended.resolve_right fun hgave => hgranted hgave.2
  · rw [hneg] at hpos
    exact absurd hpos (by decide)

/-- A platform on which no call fails refuses nothing. -/
theorem Env.Reliable.not_lastRefused (hE : E.Reliable) : ¬ LastRefused E calls calls' := by
  rintro ⟨call, older, -, -, hrefused⟩
  cases call with
  | random n => exact hE.random older n hrefused
  | hmac => exact Bool.false_ne_true (hrefused.symm.trans (hE.hmac older))
  | aes => exact Bool.false_ne_true (hrefused.symm.trans (hE.aes older))
  | alloc n => exact Bool.false_ne_true (hrefused.symm.trans (hE.alloc older n))
  | _ => exact hrefused

/-- A client of another protocol is turned away. -/
theorem poll_end_oldClient : ∃ s s' : Server, Reachable (plainEnv fun _ _ => true) s ∧
    sshPoll (plainEnv fun _ _ => true) s = .ok (-1, s') ∧
    s.link.conn.state ≠ .closed ∧ s'.link.conn.state = .closed := by
  obtain ⟨s, hreach, hpoll⟩ := exists_reachable (E := plainEnv fun _ _ => true)
    (P := fun s => (sshPoll (plainEnv fun _ _ => true) s).toOption.any
      (fun out => decide (out.1 = -1 ∧ s.link.conn.state ≠ .closed)) = true)
    [] [.data (ascii "SSH-1.5-old" ++ [cr, lf])] (by decide +kernel)
  obtain ⟨⟨ret, s'⟩, hrun, rfl, hopen⟩ := exists_ok hpoll
  obtain ⟨-, hend, -⟩ := poll_end hrun
  exact ⟨s, s', hreach, hrun, hopen,
    (hend (plainEnv_reliable _).not_lastRefused).mp rfl⟩

/-- Without random bytes `SendKexInit` fails on an open connection, and so does the poll. -/
theorem poll_fails_open : ∃ (E : Env) (s s' : Server), Reachable E s ∧
    sshPoll E s = .ok (-1, s') ∧ s'.link.conn.state ≠ .closed := by
  let E : Env := { plainEnv fun _ _ => true with random := fun _ _ => none }
  obtain ⟨s, hreach, hpoll⟩ := exists_reachable (E := E)
    (P := fun s => (sshPoll E s).toOption.any
      (fun out => decide (out.1 = -1 ∧ out.2.link.conn.state ≠ .closed)) = true)
    [] [.data clientVersionLine] (by decide +kernel)
  obtain ⟨⟨ret, s'⟩, hrun, rfl, hopen⟩ := exists_ok hpoll
  exact ⟨E, s, s', hreach, hrun, hopen⟩

end EfiSshServer
