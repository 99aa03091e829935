import EfiSshServer.Flow

/-!
# Silence after `CHANNEL_CLOSE`

The server sends `CHANNEL_CLOSE` at most once.  Behind it every sender of the
channel is held back by `closeSent` but one: `HandleChannelRequest` answers a
request that asks for a reply without looking at the flag.  Unless such a request
is dispatched after the `CLOSE`, nothing of the channel follows the `CLOSE`.
-/

namespace EfiSshServer

variable {E : Env} {s t : Session} {log : List Event}

/-- The number of `CHANNEL_CLOSE` packets sent. -/
def closesSent (log : List Event) : ℕ := log.countP (Event.isSent msgChannelClose)

/-- No message of the channel was sent behind a `CHANNEL_CLOSE`. -/
def SilentAfterClose : List Event → Prop
  | [] => True
  | .sent p _ :: log =>
      (channelMessage (msgOf p) = true → closesSent log = 0) ∧ SilentAfterClose log
  | _ :: log => SilentAfterClose log

/-- No `CHANNEL_REQUEST` that asks for a reply was dispatched behind a
`CHANNEL_CLOSE` of the server. -/
def NoLateRequest : List Event → Prop
  | [] => True
  | .dispatch q _ _ _ :: log =>
      (msgOf q = msgChannelRequest → requestWantsReply q = true → closesSent log = 0) ∧
        NoLateRequest log
  | _ :: log => NoLateRequest log

instance decidableSilentAfterClose : DecidablePred SilentAfterClose
  | [] => .isTrue trivial
  | .sent p _ :: log =>
      have := decidableSilentAfterClose log
      inferInstanceAs (Decidable ((channelMessage (msgOf p) = true → closesSent log = 0) ∧
        SilentAfterClose log))
  | .sendFailed .. :: log | .dispatch .. :: log | .auth .. :: log | .opened .. :: log
  | .adjusted .. :: log | .received .. :: log | .popped .. :: log | .readEnd .. :: log
  | .accepted :: log | .closing .. :: log | .kexInitFailed :: log
  | .versionSent _ :: log | .exchange .. :: log => decidableSilentAfterClose log

instance decidableNoLateRequest : DecidablePred NoLateRequest
  | [] => .isTrue trivial
  | .dispatch q _ _ _ :: log =>
      have := decidableNoLateRequest log
      inferInstanceAs (Decidable ((msgOf q = msgChannelRequest → requestWantsReply q = true →
        closesSent log = 0) ∧ NoLateRequest log))
  | .sent .. :: log | .sendFailed .. :: log | .auth .. :: log | .opened .. :: log
  | .adjusted .. :: log | .received .. :: log | .popped .. :: log | .readEnd .. :: log
  | .accepted :: log | .closing .. :: log | .kexInitFailed :: log
  | .versionSent _ :: log | .exchange .. :: log => decidableNoLateRequest log

theorem closesSent_sent {p : Bytes} (hmsg : msgOf p ≠ msgChannelClose) (c : Conn) :
    closesSent (.sent p c :: log) = closesSent log := by
  simp [closesSent, Event.isSent, hmsg]

/-- The condition is one on all of the run so far. -/
theorem NoLateRequest.of_append {es : List Event} (h : NoLateRequest (es ++ log)) :
    NoLateRequest log := by
  induction es with
  | nil => exact h
  | cons e es ih =>
      refine ih ?_
      cases e with
      | dispatch => exact h.2
      | _ => exact h

/-! ## The invariant -/

structure CloseOnce (chanOpen closeSent : Bool) (log : List Event) : Prop where
  opened : closesSent log ≠ 0 → chanOpen = true
  marked : closesSent log ≠ 0 → closeSent = true
  once : closesSent log ≤ 1
  silent : NoLateRequest log → SilentAfterClose log

/-- Events that say nothing of a close. -/
theorem CloseOnce.congr {chanOpen closeSent : Bool} {log' : List Event}
    (h : CloseOnce chanOpen closeSent log) (hcloses : closesSent log' = closesSent log)
    (hlate : NoLateRequest log' → NoLateRequest log)
    (hsilent : SilentAfterClose log' = SilentAfterClose log) :
    CloseOnce chanOpen closeSent log' where
  opened := by rw [hcloses]; exact h.opened
  marked := by rw [hcloses]; exact h.marked
  once := by rw [hcloses]; exact h.once
  silent hno := by rw [hsilent]; exact h.silent (hlate hno)

/-- A packet that is no `CHANNEL_CLOSE`, sent before the `CHANNEL_CLOSE`. -/
theorem CloseOnce.sent {chanOpen closeSent : Bool} {p : Bytes} {c : Conn}
    (h : CloseOnce chanOpen closeSent log) (hmsg : msgOf p ≠ msgChannelClose)
    (hsilent : NoLateRequest log → closesSent log = 0) :
    CloseOnce chanOpen closeSent (.sent p c :: log) where
  opened := by rw [closesSent_sent hmsg]; exact h.opened
  marked := by rw [closesSent_sent hmsg]; exact h.marked
  once := by rw [closesSent_sent hmsg]; exact h.once
  silent hno := ⟨fun _ => hsilent hno, h.silent hno⟩

/-- Before the flag is set no `CHANNEL_CLOSE` was sent. -/
theorem CloseOnce.closesSent_eq_zero {chanOpen closeSent : Bool}
    (h : CloseOnce chanOpen closeSent log) (hfirst : closeSent = false) : closesSent log = 0 := by
  by_contra hne
  rw [h.marked hne] at hfirst
  cases hfirst

theorem Quiet.closeOnce (hquiet : Quiet s t)
    (h : CloseOnce s.conn.chan.chanOpen s.conn.chan.closeSent s.log) :
    CloseOnce t.conn.chan.chanOpen t.conn.chan.closeSent t.log := by
  obtain ⟨hopen, hclose, -⟩ := Flow.mk.inj hquiet.flow
  rw [hopen, hclose]
  have hno : ∀ {p : Bytes} {c : Conn}, (Event.sent p c).isQuiet = true →
      channelMessage (msgOf p) = false := by
    intro p c he
    simpa [Event.isQuiet] using he
  have hcloses : ∀ e log, e.isQuiet = true → closesSent (e :: log) = closesSent log := by
    intro e log he
    cases e with
    | sent p c =>
        refine closesSent_sent (fun hmsg => ?_) c
        have hchannel := hno he
        rw [hmsg] at hchannel
        exact absurd hchannel (by decide)
    | _ => rfl
  refine h.congr (hquiet.log_eq hcloses) ?_ ?_
  · obtain ⟨es, hes, -⟩ := hquiet.log
    rw [hes]
    exact NoLateRequest.of_append
  · refine hquiet.log_eq fun e log he => ?_
    cases e with
    | sent p c =>
        refine propext ⟨And.right, fun hsilent => ⟨fun hchannel => ?_, hsilent⟩⟩
        rw [hno he] at hchannel
        cases hchannel
    | _ => rfl

/-- The reply to a request that came in time. -/
theorem CloseOnce.answered {chanOpen closeSent : Bool} {p q : Bytes} {c : Conn}
    (h : CloseOnce chanOpen closeSent s.log) (hq : Handling s q)
    (hmsg : msgOf q = msgChannelRequest) (hwant : requestWantsReply q = true)
    (hreply : msgOf p ≠ msgChannelClose) : CloseOnce chanOpen closeSent (.sent p c :: s.log) := by
  obtain ⟨packet, mac, c', log, hlog, -⟩ := hq
  refine h.sent hreply fun hno => ?_
  rw [hlog] at hno ⊢
  exact hno.1 hmsg hwant

/-- The `CHANNEL_CLOSE` itself. -/
theorem CloseOnce.closed {p : Bytes} {c : Conn} (h : CloseOnce true false log)
    (hmsg : msgOf p = msgChannelClose) : CloseOnce true true (.sent p c :: log) := by
  have hzero := h.closesSent_eq_zero rfl
  have hone : closesSent (.sent p c :: log) = 1 := by
    simp only [closesSent, List.countP_cons, Event.isSent, hmsg] at hzero ⊢
    rw [hzero]
    rfl
  refine ⟨fun _ => rfl, fun _ => rfl, hone.le, fun hno => ⟨fun _ => hzero, h.silent hno⟩⟩

theorem FlowStep.closeOnce (hstep : FlowStep s t)
    (h : CloseOnce s.conn.chan.chanOpen s.conn.chan.closeSent s.log) :
    CloseOnce t.conn.chan.chanOpen t.conn.chan.closeSent t.log := by
  have hfields : ∀ {f : Flow}, t.conn.flow = f → t.conn.chan.chanOpen = f.chanOpen ∧
      t.conn.chan.closeSent = f.closeSent := by
    rintro f rfl
    exact ⟨rfl, rfl⟩
  -- `CanSendNow` holds only as long as no `CLOSE` was sent
  have hmaySend : canSendNow s.conn = true → closesSent s.log = 0 := by
    intro hsend
    refine h.closesSent_eq_zero ?_
    simp only [canSendNow, Bool.and_eq_true, Bool.not_eq_true'] at hsend
    exact hsend.1.2
  cases hstep with
  | quiet hquiet => exact hquiet.closeOnce h
  | opened window maxPkt hclosed hflow hlog =>
      rw [hlog, (hfields hflow).1, (hfields hflow).2]
      have hzero : closesSent s.log = 0 := by
        by_contra hne
        rw [h.opened hne] at hclosed
        cases hclosed
      exact ⟨fun _ => rfl, fun hne => absurd hzero hne, h.once, h.silent⟩
  | received _ _ hflow hlog | adjusted _ hflow hlog | popped _ _ hflow hlog
  | readEnd _ hflow hlog =>
      rw [hlog, (hfields hflow).1, (hfields hflow).2]
      exact h.congr rfl id rfl
  | credited max hsend hflow hlog =>
      obtain ⟨c, hlog⟩ := hlog
      rw [hlog, (hfields hflow).1, (hfields hflow).2]
      have hpopped : CloseOnce s.conn.chan.chanOpen s.conn.chan.closeSent
          (.popped (s.conn.inRing.popUpTo max).1 s.conn :: s.log) :=
        h.congr rfl id rfl
      exact hpopped.sent (by simp; decide) fun _ => hmaySend hsend
  | creditLost _ _ hflow hlog =>
      obtain ⟨p, c, hlog⟩ := hlog
      rw [hlog, (hfields hflow).1, (hfields hflow).2]
      exact h.congr rfl id rfl
  | wrote d hsend _ _ hflow hlog =>
      rw [hlog, (hfields hflow).1, (hfields hflow).2]
      exact h.sent (by simp; decide) fun _ => hmaySend hsend
  | answered ok hq hmsg hwant hflow hlog =>
      rw [hlog, (hfields hflow).1, (hfields hflow).2]
      -- the one message that can follow a `CLOSE`: the answer to a late request
      exact h.answered hq hmsg hwant (by cases ok <;> simp <;> decide)
  | farewell hfirst hmsg hflow hlog =>
      rw [hlog, (hfields hflow).1, (hfields hflow).2]
      refine h.sent ?_ fun _ => h.closesSent_eq_zero hfirst
      rcases hmsg with hmsg | hmsg <;> rw [hmsg] <;> decide
  | closed hopen hfirst hflow hlog =>
      obtain ⟨p, hmsg, ⟨c, hlog⟩ | ⟨c, hlog⟩⟩ := hlog <;>
        rw [hlog, (hfields hflow).1, (hfields hflow).2]
      · rw [hopen, hfirst] at h
        show CloseOnce s.conn.chan.chanOpen true _
        rw [hopen]
        exact h.closed hmsg
      · have hzero := h.closesSent_eq_zero hfirst
        exact ⟨fun hne => absurd hzero hne, fun _ => rfl, h.once, h.silent⟩

/-- `CHANNEL_CLOSE` is sent at most once; and as long as no request for a reply is
dispatched behind it, no message of the channel is sent behind it. -/
theorem silent_after_close {s : Server} (h : Reachable E s) :
    closesSent s.link.log ≤ 1 ∧ (NoLateRequest s.link.log → SilentAfterClose s.link.log) := by
  have honce := h.flow_invariant
    (I := fun s => CloseOnce s.conn.chan.chanOpen s.conn.chan.closeSent s.log)
    (fun hostSeed hostPub => ⟨fun hne => absurd rfl hne, fun hne => absurd rfl hne, Nat.zero_le _,
      fun _ => trivial⟩)
    (fun s t hstep => hstep.closeOnce)
  exact ⟨honce.once, honce.silent⟩

/-- A channel that the client closes with nothing behind it. -/
theorem silent_after_close_close : ∃ s, Reachable (plainEnv fun _ _ => true) s ∧
    closesSent s.link.log = 1 ∧ SilentAfterClose s.link.log := by
  obtain ⟨s, hreach, hlate, hcloses⟩ := exists_reachable (E := plainEnv fun _ _ => true)
    (P := fun s => NoLateRequest s.link.log ∧ closesSent s.link.log = 1) [.poll]
    [.data (clientLogin "root" "secret" ++ sealedFrame clientClose)] (by decide +kernel)
  obtain ⟨-, hsilent⟩ := silent_after_close hreach
  exact ⟨s, hreach, hcloses, hsilent hlate⟩

/-- A request for a reply that arrives behind the client's close is answered behind the
server's. -/
theorem not_silent_after_close : ∃ s, Reachable (plainEnv fun _ _ => true) s ∧
    ¬ SilentAfterClose s.link.log :=
  exists_reachable (E := plainEnv fun _ _ => true) (P := fun s => ¬ SilentAfterClose s.link.log)
    [.poll] [.data (clientLogin "root" "secret" ++ sealedFrame clientClose ++
      sealedFrame (channelRequest "shell"))] (by decide +kernel)

end EfiSshServer
