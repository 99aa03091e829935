import EfiSshServer.Inbound

/-!
# Window credit that is not returned

`SshRead` returns credit behind a read that brings `consumed` to half a window,
unless a key exchange holds it back.  What was held back is made up for by the next
read, but only if that read finds data: on an empty ring `SshRead` returns before it
comes to the credit.  `creditDeferred` says that the newest read left credit behind,
and that is the only way for `consumed` to stay at half a window.
-/

namespace EfiSshServer

open StateProgram RingBuffer

variable {E : Env} {s t : Session} {log log' : List Event}

/-! ## What the log says -/

/-- The newest read that took bytes off the ring came to half a window, and could not
send. -/
def creditDeferred : List Event → Bool
  | [] => false
  | .popped d c :: _ => halfWindow ≤ c.consumed + UInt32.ofNat d.length && !canSendNow c
  | _ :: log => creditDeferred log

/-- No `SendPacket` call has failed. -/
def NoSendFailed : List Event → Prop
  | [] => True
  | .sendFailed .. :: _ => False
  | _ :: log => NoSendFailed log

instance decidableNoSendFailed : DecidablePred NoSendFailed
  | [] => .isTrue trivial
  | .sendFailed .. :: _ => .isFalse id
  | .sent .. :: log | .dispatch .. :: log | .auth .. :: log | .opened .. :: log
  | .adjusted .. :: log | .received .. :: log | .popped .. :: log | .readEnd .. :: log
  | .accepted :: log | .closing .. :: log | .kexInitFailed :: log
  | .versionSent _ :: log | .exchange .. :: log => decidableNoSendFailed log

theorem NoSendFailed.of_append {es : List Event} (h : NoSendFailed (es ++ log)) :
    NoSendFailed log := by
  induction es with
  | nil => exact h
  | cons e es ih =>
      refine ih ?_
      cases e with
      | sendFailed => exact h.elim
      | _ => exact h

/-- What is promised about the credit: less than half a window is held back, and a
client that keeps to its window and has everything read may send half a window. -/
def CreditReturned (s : Session) : Prop :=
  s.conn.consumed < halfWindow ∧
    (WindowAbiding s.log → ringEmpty s.conn = true →
      (receivedBytes s.log).length + sshLocalWindow / 2 ≤ sshLocalWindow + adjustsSent s.log)

/-! ## The invariant -/

/-- As long as no send fails, credit is held back exactly if it was deferred. -/
def CreditHeld (consumed : UInt32) (log : List Event) : Prop :=
  NoSendFailed log → (halfWindow ≤ consumed ↔ creditDeferred log = true)

theorem CreditHeld.congr {consumed : UInt32} (h : CreditHeld consumed log)
    (hfailed : NoSendFailed log' → NoSendFailed log)
    (hdeferred : creditDeferred log' = creditDeferred log) : CreditHeld consumed log' := by
  intro hno
  rw [hdeferred]
  exact h (hfailed hno)

theorem FlowStep.creditHeld (hstep : FlowStep s t) (h : CreditHeld s.conn.consumed s.log) :
    CreditHeld t.conn.consumed t.log := by
  have hfield : ∀ {f : Flow}, t.conn.flow = f → t.conn.consumed = f.consumed := by
    rintro f rfl
    rfl
  cases hstep with
  | quiet hquiet =>
      rw [hfield hquiet.flow]
      obtain ⟨es, hes, -⟩ := hquiet.log
      refine h.congr (fun hno => NoSendFailed.of_append (hes ▸ hno)) ?_
      exact hquiet.log_eq fun e log he => by cases e <;> first | rfl | cases he
  | popped max hheld hflow hlog =>
      rw [hlog, hfield hflow]
      intro _
      rw [show creditDeferred (.popped (s.conn.inRing.popUpTo max).1 s.conn :: s.log) =
        (decide (halfWindow ≤ (s.conn.flow.pop max).consumed) && !canSendNow s.conn) from rfl]
      -- half a window is in, so only `CanSendNow` can have kept the credit back
      by_cases hhalf : halfWindow ≤ (s.conn.flow.pop max).consumed
      · have hsend : canSendNow s.conn = false := by
          rw [← Bool.not_eq_true]
          exact fun hsend => hheld ⟨hhalf, hsend⟩
        simp [hhalf, hsend]
      · simp [hhalf]
  | credited max hsend hflow hlog =>
      obtain ⟨c, hlog⟩ := hlog
      rw [hlog, hfield hflow]
      intro _
      rw [show creditDeferred (.sent _ c :: .popped (s.conn.inRing.popUpTo max).1 s.conn :: s.log) =
        (decide (halfWindow ≤ (s.conn.flow.pop max).consumed) && !canSendNow s.conn) from rfl,
        hsend]
      simp [show ¬ halfWindow ≤ 0 by decide]
  | creditLost max _ hflow hlog =>
      obtain ⟨p, c, hlog⟩ := hlog
      rw [hlog]
      exact fun hno => hno.elim
  | opened _ _ _ hflow hlog | received _ _ hflow hlog | adjusted _ hflow hlog
  | readEnd _ hflow hlog | wrote _ _ _ _ hflow hlog | answered _ _ _ _ hflow hlog
  | farewell _ _ hflow hlog =>
      rw [hlog, hfield hflow]
      exact h.congr id rfl
  | closed _ _ hflow hlog =>
      obtain ⟨p, -, ⟨c, hlog⟩ | ⟨c, hlog⟩⟩ := hlog <;> rw [hlog]
      · rw [hfield hflow]
        exact h.congr id rfl
      · exact fun hno => hno.elim

theorem Reachable.creditHeld {s : Server} (h : Reachable E s) :
    CreditHeld s.link.conn.consumed s.link.log :=
  h.flow_invariant (I := fun s => CreditHeld s.conn.consumed s.log)
    (fun _ _ _ => iff_of_false (show ¬ halfWindow ≤ (0 : UInt32) by decide) nofun)
    fun _ _ hstep => hstep.creditHeld

/-! ## What `SshRead` does about it -/

/-- Where the credit stays deferred behind the poll of `SshRead`. -/
theorem takeInput_creditDeferred (max : ℕ) (l : Link) :
    wp (takeInput E max) (fun out l' => 0 ≤ out.1 → canSendNow l'.conn = true →
      NoSendFailed l'.log → (creditDeferred l'.log = true ↔
        ringEmpty l.conn = true ∧ creditDeferred l.log = true)) (fun _ => False) l := by
  simp only [takeInput, wp_bind, LinkM.wp_conn]
  refine wp.ite (fun hempty => ?_) fun hfull => ?_
  · refine wp.ite (fun _ hneg => absurd hneg (by decide)) fun _ _ _ _ => ?_
    exact ⟨fun h => ⟨hempty, h⟩, And.right⟩
  · simp only [wp_bind, LinkM.wp_record, LinkM.wp_update, wp_pure]
    refine wp.imp returnCredit_credits fun _ l' hcredit _ hsend hno => ?_
    refine ⟨fun hdeferred => ?_, fun h => absurd h.1 hfull⟩
    have hpopped : ∀ {c : Conn}, canSendNow c = true →
        creditDeferred (.popped (l.conn.inRing.popUpTo max).1 c :: l.log) = false := by
      intro c hc
      rw [creditDeferred, hc]
      simp
    generalize hl' : l'.toSession = t at hcredit
    have hlog : l'.log = t.log := congrArg Session.log hl'
    have hconn : l'.conn = t.conn := congrArg Session.conn hl'
    rw [hlog] at hdeferred hno
    rw [hconn] at hsend
    cases hcredit with
    | held _ =>
        have hheld := hpopped (c := l.conn) hsend
        exact absurd (hdeferred.symm.trans hheld) (by decide)
    | sent hsend' hemit =>
        rw [(hemit.log_eq.resolve_right fun h => absurd rfl h.1).2] at hdeferred
        have hheld := hpopped (c := l.conn) hsend'
        exact absurd (hdeferred.symm.trans hheld) (by decide)
    | lost _ hemit hr =>
        rw [(hemit.log_eq.resolve_left fun h => hr h.1).2] at hno
        exact hno.elim

theorem Reachable.creditReturned {s : Server} (h : Reachable E s)
    (hcredit : s.link.conn.consumed < halfWindow) : CreditReturned s.link.toSession := by
  refine ⟨hcredit, fun habiding hempty => ?_⟩
  have hinbound := h.inbound habiding
  have hqueue := hinbound.queue
  rw [(Ring.isEmpty_iff_toList _).mp hempty, List.append_nil] at hqueue
  have htotal := hinbound.credit
  rw [hqueue] at htotal
  have hless : s.link.conn.consumed.toNat < 16384 := hcredit
  simp only [sshLocalWindow]
  omega

/-- When `SshRead` returns without an error in a state that may send, the credit was
returned unless the poll left the ring empty with credit deferred. -/
theorem credit_returned_iff {s p s' : Server} {n ret : Int} {progressed : Bool} {data : Bytes}
    {max : ℕ} (h : Reachable E s) (hpoll : processInput E s = .ok ((n, progressed), p))
    (hread : sshRead E max s = .ok ((ret, data), s')) (hret : 0 ≤ ret)
    (hsend : canSendNow s'.link.conn = true) (hno : NoSendFailed s'.link.log) :
    CreditReturned s'.link.toSession ↔
      ¬ (ringEmpty p.link.conn = true ∧ creditDeferred p.link.log = true) := by
  have hreach : Reachable E s' := by
    obtain ⟨connSize, hostSeed, calls, input, s₀, hnew, hruns⟩ := h
    refine ⟨connSize, hostSeed, calls, input, s₀, hnew, hruns.call (.read max) ?_⟩
    rw [runCall, bind_ok hread]
    rfl
  have htake : wp (ServerM.onLink (takeInput E max)) (fun _ s' =>
      creditDeferred s'.link.log = true ↔
        ringEmpty p.link.conn = true ∧ creditDeferred p.link.log = true) (fun _ => False) p := by
    rw [sshRead, bind_ok hpoll] at hread
    refine wp_of_run hread ?_
    have hall : wp (ServerM.onLink (takeInput E max)) (fun out s' => 0 ≤ out.1 →
        canSendNow s'.link.conn = true → NoSendFailed s'.link.log →
        (creditDeferred s'.link.log = true ↔
          ringEmpty p.link.conn = true ∧ creditDeferred p.link.log = true)) (fun _ => False) p := by
      rw [ServerM.wp_onLink]
      exact takeInput_creditDeferred max p.link
    exact hall.ok hread hret hsend hno
  rw [sshRead, bind_ok hpoll] at hread
  rw [← htake.ok hread, ← hreach.creditHeld hno, UInt32.not_le]
  exact ⟨And.left, hreach.creditReturned⟩

/-- A read behind a login. -/
theorem credit_returned_iff_login : ∃ s s' : Server, ∃ ret data,
    Reachable (plainEnv fun _ _ => true) s ∧
      sshRead (plainEnv fun _ _ => true) 100 s = .ok ((ret, data), s') ∧
      CreditReturned s'.link.toSession := by
  obtain ⟨s, hreach, hruns⟩ := exists_reachable (E := plainEnv fun _ _ => true)
    (P := fun s => (processInput (plainEnv fun _ _ => true) s).toOption.any (fun out =>
      decide (ringEmpty out.2.link.conn = false)) = true ∧
      (sshRead (plainEnv fun _ _ => true) 100 s).toOption.any (fun out => decide (0 ≤ out.1.1 ∧
        canSendNow out.2.link.conn = true ∧ NoSendFailed out.2.link.log)) = true) []
    [.data (clientLogin "root" "secret" ++ sealedFrame (clientData (ascii "ls -l")))]
    (by decide +kernel)
  obtain ⟨⟨⟨n, progressed⟩, p⟩, hpoll, hring⟩ := exists_ok hruns.1
  obtain ⟨⟨⟨ret, data⟩, s'⟩, hread, hret, hsend, hno⟩ := exists_ok hruns.2
  refine ⟨s, s', ret, data, hreach, hread,
    (credit_returned_iff hreach hpoll hread hret hsend hno).mpr fun hdeferred => ?_⟩
  exact absurd (hring.symm.trans hdeferred.1) (by decide)

/-! ## Credit that stays deferred

The client fills half a window while a key exchange is running, the server reads it,
and the exchange ends. -/

/-- Polling when nothing has arrived. -/
theorem processInput_idle {s : Server} {rest : List ReadResult} (hbuf : s.rx.buf = [])
    (hlen : s.rx.haveLen = false) (hclosed : s.link.conn.state ≠ .closed)
    (hversion : s.link.conn.state ≠ .version)
    (hinput : s.input = .data [] :: rest ∨ (s.input = [] ∧ rest = [])) :
    processInput E s = .ok ((0, false), { s with input := rest }) := by
  have hread : wp (rd sshRxBuf) (fun got s' => got = some [] ∧ s' = { s with input := rest })
      (fun _ => False) s := by
    rcases hinput with hinput | ⟨hinput, rfl⟩
    · exact wp_of_run (t := { s with input := rest }) (by simp only [rd, hinput]; rfl) ⟨rfl, rfl⟩
    · exact wp_of_run (t := s) (by simp only [rd, hinput]) ⟨rfl, by rw [← hinput]⟩
  have htry : wp (tryProcessOne E) (fun ret r' => ret = 0 ∧ r' = s.toReceiver) (fun _ => False)
      s.toReceiver := by
    have hshort : ([] : Bytes).length < firstLen s.link.conn.inDir := by
      rw [firstLen]
      split <;> decide
    simp only [tryProcessOne, tryProcessOneWith, tryPacket, readHeader, wp_bind, RecvM.wp_conn,
      RecvM.wp_rx, if_neg hclosed, if_neg hversion, hlen, hbuf, if_pos hshort]
    exact ⟨rfl, rfl⟩
  have hrun : wp (processInput E) (fun out s' => out = (0, false) ∧ s' = { s with input := rest })
      (fun _ => False) s := by
    simp only [processInput, inputBound, processRounds, receive, wp_bind, wp_get, ServerM.wp_conn,
      wp_onRecv, RecvM.wp_rx, if_neg hclosed, hbuf]
    refine wp.ite (fun _ => ?_) fun hfull => absurd (by decide) hfull
    simp only [wp_bind]
    refine wp.imp hread fun got s₁ h => ?_
    obtain ⟨rfl, rfl⟩ := h
    have hsame : (⟨s.link, ⟨[] ++ [], s.rx.haveLen, s.rx.pktLen⟩⟩ : Receiver) = s.toReceiver := by
      rw [List.append_nil, ← hbuf]
    simp only [wp_bind, wp_onRecv, RecvM.wp_setRx, RecvM.wp_rx, wp_pure, hbuf, hsame, processAll]
    refine wp.imp htry fun ret r' h => ?_
    obtain ⟨rfl, rfl⟩ := h
    exact ⟨rfl, rfl⟩
  obtain ⟨out, s', hok, rfl, rfl⟩ := hrun.returns
  exact hok

/-- `SshRead` is its poll and what it takes off the ring. -/
theorem sshRead_of {s p : Server} {max : ℕ} {polled : Int × Bool} {out : Int × Bytes} {l : Link}
    (hpoll : processInput E s = .ok (polled, p)) (htake : takeInput E max p.link = .ok (out, l)) :
    sshRead E max s = .ok (out, { p with link := l }) := by
  rw [sshRead, bind_ok hpoll]
  simp only [ServerM.onLink, onRecv, RecvM.onLink, zoom, htake]

/-- A read that empties the ring while nothing may be sent. -/
theorem takeInput_held {l : Link} (max : ℕ) (hfull : ringEmpty l.conn = false)
    (hsend : canSendNow l.conn = false) :
    takeInput E max l = .ok ((((l.conn.inRing.popUpTo max).1.length : Int),
      (l.conn.inRing.popUpTo max).1), { l with toSession := l.toSession.popped max }) := by
  have hrun : wp (takeInput E max) (fun out l' =>
      out = (((l.conn.inRing.popUpTo max).1.length : Int), (l.conn.inRing.popUpTo max).1) ∧
        l' = { l with toSession := l.toSession.popped max }) (fun _ => False) l := by
    simp only [takeInput, returnCredit, wp_bind, LinkM.wp_conn]
    refine wp.ite (fun hempty => absurd (hempty.symm.trans hfull) (by decide)) fun _ => ?_
    simp only [wp_bind, LinkM.wp_record, LinkM.wp_update, LinkM.wp_conn, wp_pure]
    refine wp.ite (fun hsent => ?_) fun _ => ⟨trivial, rfl⟩
    exact absurd (hsent.2.symm.trans hsend) (by decide)
  obtain ⟨out, l', hok, rfl, rfl⟩ := hrun.returns
  exact hok

/-- A read on an empty ring that is not at its end. -/
theorem takeInput_empty {max : ℕ} {l : Link} (hempty : ringEmpty l.conn = true)
    (hgoing : ¬ (l.conn.state = .closed ∨ l.conn.chan.closeRecv = true ∨
      l.conn.chan.remoteEof = true ∨ l.conn.chan.chanOpen = false)) :
    takeInput E max l = .ok ((0, []), l) := by
  have hrun : wp (takeInput E max) (fun out l' => out = (0, []) ∧ l' = l) (fun _ => False) l := by
    simp only [takeInput, wp_bind, LinkM.wp_conn]
    refine wp.ite (fun _ => ?_) fun hfull => absurd hempty hfull
    exact wp.ite (fun hend => absurd hend hgoing) fun _ => ⟨rfl, rfl⟩
  obtain ⟨out, l', hok, rfl, rfl⟩ := hrun.returns
  exact hok

/-- Half a window of data, between a `KEXINIT` and the `KEXDH_INIT` that follows it. -/
def deferringInput : List ReadResult :=
  [.data (clientLogin "root" "secret" ++ sealedFrame clientKexInit), .data [],
    .data (sealedFrame (clientData (List.replicate 16384 0))), .data [], .data [],
    .data (sealedFrame kexdhInit)]

/-- The server behind an `SshRead` of 16384 bytes, with the `KEXDH_INIT` to come. -/
def Server.tookHalfWindow (s : Server) : Server :=
  { s with
    link := { s.link with
      conn := { s.link.conn with inRing := (s.link.conn.inRing.popUpTo 16384).2, consumed := 16384 }
      log := .popped (s.link.conn.inRing.popUpTo 16384).1 s.link.conn :: s.link.log }
    input := [.data (sealedFrame kexdhInit)] }

/-- Nothing is left to process, on a connection that is logged in. -/
def Server.Idle (s : Server) : Prop :=
  s.rx.buf = [] ∧ s.rx.haveLen = false ∧ s.link.conn.state = .conn

/-- Half a window was received, and none of it credited. -/
def HoldsHalfWindow (log : List Event) : Prop :=
  (receivedBytes log).length = 16384 ∧ adjustsSent log = 0 ∧ WindowAbiding log

instance : DecidablePred Server.Idle := fun _ => inferInstanceAs (Decidable (_ ∧ _))

instance : DecidablePred HoldsHalfWindow := fun _ => inferInstanceAs (Decidable (_ ∧ _))

/-- Half a window in the ring, during a key exchange. -/
def Server.Deferring (s : Server) : Prop :=
  s.Idle ∧ canSendNow s.link.conn = false ∧ s.link.conn.consumed = 0 ∧
    HoldsHalfWindow s.link.log ∧ s.input = [.data [], .data (sealedFrame kexdhInit)]

/-- Half a window was read, and the key exchange is over. -/
def Server.Deferred (s : Server) : Prop :=
  s.Idle ∧ canSendNow s.link.conn = true ∧ s.link.conn.consumed = 16384 ∧
    HoldsHalfWindow s.link.log ∧ NoSendFailed s.link.log ∧ s.input = [] ∧
    s.link.conn.chan.closeRecv = false ∧ s.link.conn.chan.remoteEof = false ∧
    s.link.conn.chan.chanOpen = true

instance : DecidablePred Server.Deferring := fun _ => inferInstanceAs (Decidable (_ ∧ _))

instance : DecidablePred Server.Deferred := fun _ => inferInstanceAs (Decidable (_ ∧ _))

/-- The read behind which the credit stays deferred. -/
theorem Server.Deferring.read {s : Server} (h : s.Deferring) (hreach : Reachable E s) :
    runCall E (.read 16384) s = .ok ((), s.tookHalfWindow) := by
  obtain ⟨⟨hbuf, hlen, hstate⟩, hsend, hconsumed, ⟨hreceived, hadjusts, habiding⟩, hinput⟩ := h
  have hinbound := hreach.inbound habiding
  have hpopped : poppedBytes s.link.log = [] := by
    rw [← List.length_eq_zero_iff, ← hinbound.credit, hadjusts, hconsumed]
    rfl
  have hcount : s.link.conn.inRing.count = 16384 := by
    rw [← Ring.length_toList, ← hreceived, ← hinbound.queue, hpopped, List.nil_append]
  have hfull : ringEmpty s.link.conn = false := by
    rw [← Bool.not_eq_true, ringEmpty, Ring.isEmpty_iff, hcount]
    decide
  have htaken : (s.link.conn.inRing.popUpTo 16384).1.length = 16384 := by
    rw [Ring.length_popUpTo, hcount, Nat.min_self]
  have hpoll : processInput E s =
      .ok ((0, false), { s with input := [.data (sealedFrame kexdhInit)] }) :=
    processInput_idle hbuf hlen (by rw [hstate]; decide) (by rw [hstate]; decide) (.inl hinput)
  have htake := takeInput_held (E := E) 16384 hfull hsend
  rw [Session.popped, htaken, hconsumed,
    show (0 : UInt32) + UInt32.ofNat 16384 = 16384 from rfl] at htake
  rw [runCall, bind_ok (sshRead_of hpoll htake)]
  rfl

theorem Server.Deferred.ringEmpty {s : Server} (h : s.Deferred) (hreach : Reachable E s) :
    ringEmpty s.link.conn = true := by
  obtain ⟨-, -, hconsumed, ⟨hreceived, hadjusts, habiding⟩, -⟩ := h
  have hinbound := hreach.inbound habiding
  have hpopped : (poppedBytes s.link.log).length = 16384 := by
    rw [← hinbound.credit, hadjusts, hconsumed]
    rfl
  have hqueue := congrArg List.length hinbound.queue
  rw [List.length_append, hpopped, hreceived, Ring.length_toList] at hqueue
  rw [EfiSshServer.ringEmpty, Ring.isEmpty_iff]
  omega

/-- An `SshRead` on an empty ring returns 0 with half a window uncredited, although it
may send. -/
theorem credit_not_returned : ∃ s s' : Server, Reachable (plainEnv fun _ _ => true) s ∧
    sshRead (plainEnv fun _ _ => true) 1 s = .ok ((0, []), s') ∧
    canSendNow s'.link.conn = true ∧ NoSendFailed s'.link.log ∧
    ¬ CreditReturned s'.link.toSession := by
  obtain ⟨s, hreach, hdeferring, hexchange⟩ := exists_reachable (E := plainEnv fun _ _ => true)
    (P := fun s => s.Deferring ∧ (runCall (plainEnv fun _ _ => true) .poll
      s.tookHalfWindow).toOption.any (fun out => decide out.2.Deferred) = true)
    [.poll, .poll] deferringInput (by decide +kernel)
  obtain ⟨⟨_, t⟩, hpoll, hdeferred⟩ := exists_ok hexchange
  have hdeferred : t.Deferred := hdeferred
  have hreach' : Reachable (plainEnv fun _ _ => true) t :=
    (hreach.call _ (hdeferring.read hreach)).call _ hpoll
  have hempty := hdeferred.ringEmpty hreach'
  obtain ⟨⟨hbuf, hlen, hstate⟩, hsend, hconsumed, -, hno, hinput, hclose, heof, hopen⟩ := hdeferred
  have hidle : processInput (plainEnv fun _ _ => true) t =
      .ok ((0, false), { t with input := [] }) :=
    processInput_idle hbuf hlen (by rw [hstate]; decide) (by rw [hstate]; decide)
      (.inr ⟨hinput, rfl⟩)
  refine ⟨t, { t with input := [] }, hreach', ?_, hsend, hno, fun h => ?_⟩
  · refine sshRead_of hidle (takeInput_empty hempty ?_)
    simp [hstate, hclose, heof, hopen]
  · rw [CreditReturned, hconsumed] at h
    exact absurd h.1 (by decide)

end EfiSshServer
