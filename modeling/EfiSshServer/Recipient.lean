import EfiSshServer.Gate

/-!
# Messages for another channel

The server has one channel, number 0, and its messages carry the number of the
channel they are for.  `CHANNEL_DATA` and `CHANNEL_REQUEST` for another channel end
the connection, and extended data is ignored.  `WINDOW_ADJUST`, `EOF` and `CLOSE` are
handled without a look at the number: they act on the channel unless what they would
change is so already.
-/

namespace EfiSshServer

open StateProgram

variable {E : Env} {p : Bytes} {l : Link} {fault : Fault → Prop}

/-- The recipient of a channel message is missing or not channel 0. -/
def misaddressed (p : Bytes) : Bool :=
  (rU32 (rInit (p.drop 1))).rest.err || (rU32 (rInit (p.drop 1))).val ≠ 0

/-- The messages that carry a recipient. -/
def recipientMessages : List UInt8 :=
  [msgChannelWindowAdjust, msgChannelData, msgChannelExtendedData, msgChannelEof, msgChannelClose,
    msgChannelRequest]

/-- The channel is as it was, and nothing was sent on it. -/
structure Untouched (l l' : Link) : Prop where
  remoteWindow : l'.conn.chan.remoteWindow = l.conn.chan.remoteWindow
  remoteEof : l'.conn.chan.remoteEof = l.conn.chan.remoteEof
  closeRecv : l'.conn.chan.closeRecv = l.conn.chan.closeRecv
  closeSent : l'.conn.chan.closeSent = l.conn.chan.closeSent
  shellReady : l'.conn.chan.shellReady = l.conn.chan.shellReady
  size : l'.conn.chan.cols = l.conn.chan.cols ∧ l'.conn.chan.rows = l.conn.chan.rows
  inRing : l'.conn.inRing = l.conn.inRing
  silent : ∃ es, l'.log = es ++ l.log ∧ ∀ q c, Event.sent q c ∈ es →
    ¬ (msgChannelOpen ≤ msgOf q ∧ msgOf q ≤ msgChannelFailure)

/-- What the message would change is so already. -/
def spares (c : Conn) (p : Bytes) : Bool :=
  if msgOf p = msgChannelWindowAdjust then
    let add := rU32 (rU32 (rInit (p.drop 1))).rest
    add.rest.err || add.val = 0
  else if msgOf p = msgChannelEof then c.chan.remoteEof
  else if msgOf p = msgChannelClose then c.chan.closeRecv && c.chan.closeSent
  else true

/-! ## Readers stay in error -/

theorem rU32_err {r : RBuf} (h : r.err = true) : (rU32 r).rest.err = true := by
  simp [rU32, h]

theorem rByte_err {r : RBuf} (h : r.err = true) : (rByte r).rest.err = true := by
  simp [rByte, h]

theorem rStr_err {r : RBuf} (h : r.err = true) : (rStr r).rest.err = true := by
  simp [rStr, rU32_err h]

/-! ## What the handlers do -/

theorem Untouched.of_eq {l' : Link} (hconn : l'.conn = l.conn) (hlog : l'.log = l.log) :
    Untouched l l' := by
  refine ⟨?_, ?_, ?_, ?_, ?_, ⟨?_, ?_⟩, ?_, [], hlog, by simp⟩ <;> rw [hconn]

/-- The end of the connection leaves the channel as it is. -/
theorem fail_untouched (reason : UInt32) (msg : String) :
    wp (fail E reason msg) (fun _ l' => Untouched l l') fault l := by
  refine wp.imp (fail_farewell reason msg) fun _ l' h => ?_
  obtain ⟨hframe, es, hes, hsend⟩ := h.2.sends
  have hchan : l'.conn.chan = l.conn.chan := hframe.chan
  refine ⟨by rw [hchan], by rw [hchan], by rw [hchan], by rw [hchan], by rw [hchan],
    by rw [hchan]; exact ⟨rfl, rfl⟩, hframe.inRing, es, hes, fun q c hmem => ?_⟩
  rw [show msgOf q = msgDisconnect from ((hsend _ hmem).2 q c rfl).1]
  decide

theorem handleWindowAdjust_untouched (hmsg : msgOf p = msgChannelWindowAdjust) :
    wp (handleWindowAdjust p) (fun _ l' => Untouched l l' ↔ spares l.conn p = true) fault l := by
  simp only [handleWindowAdjust, spares, hmsg, if_true, updateChan]
  refine wp.ite (fun herr => ?_) fun hok => ?_
  · simp only [herr, Bool.true_or, iff_true]
    exact Untouched.of_eq rfl rfl
  · simp only [wp_bind, LinkM.wp_update, LinkM.wp_record, wp_pure, Bool.not_eq_true] at hok ⊢
    simp only [hok, Bool.false_or, decide_eq_true_eq]
    refine ⟨fun h => ?_, fun hzero => ?_⟩
    · have hwindow := h.remoteWindow
      simpa using hwindow
    · refine ⟨?_, rfl, rfl, rfl, rfl, ⟨rfl, rfl⟩, rfl, [_], rfl, by simp⟩
      show l.conn.chan.remoteWindow + _ = _
      rw [hzero, UInt32.add_zero]

theorem handleChannelClose_untouched (hopen : l.conn.chan.chanOpen = true)
    (hmsg : msgOf p = msgChannelClose) :
    wp (handleChannelClose E) (fun _ l' => Untouched l l' ↔ spares l.conn p = true) fault l := by
  simp only [handleChannelClose, updateChan, wp_bind, LinkM.wp_update, LinkM.wp_conn]
  have hspares : spares l.conn p = (l.conn.chan.closeRecv && l.conn.chan.closeSent) := by
    simp +decide [spares, hmsg]
  rw [hspares]
  refine wp.ite (fun hfirst => ?_) fun hsent => ?_
  · simp only [sendChannelReply, wp_bind, LinkM.wp_update, LinkM.wp_conn, wp_pure]
    refine wp.imp (sendPacket_emits E _ _ fault) fun _ l' hemit => ?_
    have hclose : l.conn.chan.closeSent = false := hfirst.2
    rw [hclose, Bool.and_false]
    refine iff_of_false (fun h => ?_) (by decide)
    have hchan := h.closeSent
    rw [show l'.conn.chan.closeSent = true from congrArg Channel.closeSent hemit.frame.chan,
      hclose] at hchan
    cases hchan
  · have hclose : l.conn.chan.closeSent = true := by
      by_contra hne
      exact hsent ⟨hopen, by simpa using hne⟩
    simp only [wp_pure, hclose, Bool.and_true]
    refine ⟨fun h => h.closeRecv.symm, fun hrecv => ?_⟩
    exact ⟨rfl, rfl, hrecv.symm, hclose.symm, rfl, ⟨rfl, rfl⟩, rfl, [], rfl, by simp⟩

theorem handleChannelData_untouched (hmis : misaddressed p = true) :
    wp (handleChannelData E p) (fun _ l' => Untouched l l') fault l := by
  simp only [misaddressed, Bool.or_eq_true, decide_eq_true_eq] at hmis
  simp only [handleChannelData, wp_bind, LinkM.wp_conn]
  refine wp.ite (fun _ => fail_untouched _ _) fun hgood => ?_
  refine wp.ite (fun _ => fail_untouched _ _) fun hok => absurd ?_ hok
  exact rStr_err (hmis.resolve_right fun hne => hgood (.inl hne))

theorem handleChannelRequest_untouched (hmis : misaddressed p = true) :
    wp (handleChannelRequest E p) (fun _ l' => Untouched l l') fault l := by
  simp only [misaddressed, Bool.or_eq_true, decide_eq_true_eq] at hmis
  simp only [handleChannelRequest, wp_bind, LinkM.wp_conn]
  refine wp.ite (fun _ => fail_untouched _ _) fun hgood => absurd ?_ hgood
  exact hmis.elim (fun herr => .inl (rByte_err (rStr_err herr))) fun hne => .inr (.inl hne)

/-! ## The result -/

/-- A message for another channel leaves the open channel alone exactly if the message is
no `WINDOW_ADJUST`, `EOF` or `CLOSE` that would change something. -/
theorem misaddressed_untouched_iff (h : Visited E l.toSession)
    (hopen : l.conn.chan.chanOpen = true) (hmsg : msgOf p ∈ recipientMessages)
    (hmis : misaddressed p = true) :
    ∃ r l', handlePacket E p l = .ok (r, l') ∧ (Untouched l l' ↔ spares l.conn p = true) := by
  have hgate : Gate l.toSession := h.invariant gate_new fun _ _ => Gate.step
  have hstate : l.conn.state ≠ .version := fun hversion => by
    rcases hgate.loggedIn (.inr (.inl hopen)) with hstate | hstate <;>
      exact absurd (hversion.symm.trans hstate) (by decide)
  have hne : p ≠ [] := by
    rintro rfl
    revert hmsg
    decide
  -- of the other messages `spares` asks nothing
  have hspared : ∀ {l' : Link}, msgOf p ≠ msgChannelWindowAdjust → msgOf p ≠ msgChannelEof →
      msgOf p ≠ msgChannelClose → Untouched l l' → (Untouched l l' ↔ spares l.conn p = true) := by
    intro l' hadjust heof hclose h
    simp [spares, hadjust, heof, hclose, h]
  have hrun : wp (handleMessage E (msgOf p) p) (fun _ l' =>
      Untouched l l' ↔ spares l.conn p = true) (fun _ => False) l := by
    simp only [recipientMessages, List.mem_cons, List.not_mem_nil, or_false] at hmsg
    -- one case for each of the six messages that name a recipient
    rcases hmsg with hmsg | hmsg | hmsg | hmsg | hmsg | hmsg <;>
      simp +decide only [hmsg, handleMessage, wp_bind, LinkM.wp_conn, if_true, if_false]
    · exact handleWindowAdjust_untouched hmsg
    · refine wp.imp (handleChannelData_untouched hmis) fun _ l' => hspared ?_ ?_ ?_ <;>
        rw [hmsg] <;> decide
    · refine hspared ?_ ?_ ?_ (.of_eq rfl rfl) <;> rw [hmsg] <;> decide
    · have hspares : spares l.conn p = l.conn.chan.remoteEof := by
        simp +decide [spares, hmsg]
      simp only [updateChan, LinkM.wp_update, wp_pure, hspares]
      refine ⟨fun h => h.remoteEof.symm, fun heof => ?_⟩
      exact ⟨rfl, heof.symm, rfl, rfl, rfl, ⟨rfl, rfl⟩, rfl, [], rfl, by simp⟩
    · exact handleChannelClose_untouched hopen hmsg
    · refine wp.imp (?_ : wp _ (fun _ l' => Untouched l l') _ l) fun _ l' => hspared ?_ ?_ ?_
      · exact wp.ite (fun _ => fail_untouched _ _) fun _ => handleChannelRequest_untouched hmis
      all_goals
        rw [hmsg]
        decide
  obtain ⟨r, l', hok, hiff⟩ := hrun.returns
  refine ⟨r, l', ?_, hiff⟩
  rw [handlePacket_eq hne (Conn.discards_of_msg _ ?_) hstate]
  · exact hok
  · intro hrange
    revert hmsg hrange
    generalize msgOf p = m
    intro hmsg
    simp only [recipientMessages, List.mem_cons, List.not_mem_nil, or_false] at hmsg
    rcases hmsg with rfl | rfl | rfl | rfl | rfl | rfl <;> decide

/-- Data for channel 7 does not get into the ring. -/
theorem misaddressed_untouched_iff_data : ∃ l : Link,
    Visited (plainEnv fun _ _ => true) l.toSession ∧
    ∃ r l', handlePacket (plainEnv fun _ _ => true) (channelDataPayload 7 (ascii "ls")).data l =
      .ok (r, l') ∧ Untouched l l' := by
  obtain ⟨s, hreach, hopen⟩ := exists_reachable (E := plainEnv fun _ _ => true)
    (P := fun s => s.link.conn.chan.chanOpen = true) [.poll]
    [.data (clientLogin "root" "secret")] (by decide +kernel)
  obtain ⟨r, l', hrun, hiff⟩ := misaddressed_untouched_iff hreach.visited hopen
    (p := (channelDataPayload 7 (ascii "ls")).data) (by decide +kernel) (by decide +kernel)
  exact ⟨s.link, hreach.visited, r, l', hrun, hiff.mpr rfl⟩

/-- An `EOF` for channel 7 ends the input of channel 0. -/
theorem misaddressed_eof : ∃ l : Link, Visited (plainEnv fun _ _ => true) l.toSession ∧
    l.conn.chan.chanOpen = true ∧ misaddressed (channelReplyPayload msgChannelEof 7) = true ∧
    ∃ r l', handlePacket (plainEnv fun _ _ => true) (channelReplyPayload msgChannelEof 7) l =
      .ok (r, l') ∧ ¬ Untouched l l' := by
  obtain ⟨s, hreach, hopen, heof, hrun⟩ := exists_reachable (E := plainEnv fun _ _ => true)
    (P := fun s => s.link.conn.chan.chanOpen = true ∧ s.link.conn.chan.remoteEof = false ∧
      (handlePacket (plainEnv fun _ _ => true) (channelReplyPayload msgChannelEof 7)
        s.link).toOption.any (fun out => decide (out.2.conn.chan.remoteEof = true)) = true)
    [.poll] [.data (clientLogin "root" "secret")] (by decide +kernel)
  obtain ⟨⟨r, l'⟩, hrun, hset⟩ := exists_ok hrun
  refine ⟨s.link, hreach.visited, hopen, by decide, r, l', hrun, fun h => ?_⟩
  exact absurd (hset.symm.trans (h.remoteEof.trans heof)) (by decide)

end EfiSshServer
