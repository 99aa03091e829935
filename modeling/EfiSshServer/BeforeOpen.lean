import EfiSshServer.Scenario

/-!
# Traffic before the channel leaves no trace in it

Handlers of channel messages run in any state, and some of them write fields of the
channel before there is one.  What they can write is what `HandleChannelOpen` sets
anew; everything else is still as `SshNew` left it.  So the channel that a
`CHANNEL_OPEN` makes depends on that packet only.
-/

namespace EfiSshServer

open StateProgram RingBuffer

variable {E E₁ E₂ : Env} {p : Bytes} {r : Int} {s t : Session} {l : Link} {fault : Fault → Prop}

/-! ## What is unused until the channel is opened -/

/-- The ring of a new connection. -/
def newRing : Ring UInt8 sshInRing := ⟨fun _ => 0, ⟨0, sshInRing_pos⟩, ⟨0, sshInRing_pos⟩⟩

/-- The fields of a connection that no message before the `CHANNEL_OPEN` can change. -/
structure Usage where
  shellReady : Bool
  cols : UInt32
  rows : UInt32
  inRing : Ring UInt8 sshInRing
  consumed : UInt32

def unused : Usage := ⟨false, 80, 25, newRing, 0⟩

def Conn.usage (c : Conn) : Usage :=
  ⟨c.chan.shellReady, c.chan.cols, c.chan.rows, c.inRing, c.consumed⟩

/-- As long as no channel was opened, nothing of it is used. -/
def UnusedUntilOpen (chanOpen : Bool) (usage : Usage) : Prop := chanOpen = false → usage = unused

abbrev Session.unusedUntilOpen (s : Session) : Prop :=
  UnusedUntilOpen s.conn.chan.chanOpen s.conn.usage

/-- With an open channel there is nothing to show. -/
theorem UnusedUntilOpen.of_open {chanOpen : Bool} {usage : Usage} (h : chanOpen = true) :
    UnusedUntilOpen chanOpen usage :=
  fun hclosed => absurd (hclosed.symm.trans h) (by decide)

theorem SendFrame.unusedUntilOpen {c c' : Conn} (h : SendFrame c c')
    (hs : UnusedUntilOpen c.chan.chanOpen c.usage) : UnusedUntilOpen c'.chan.chanOpen c'.usage := by
  unfold Conn.usage
  rw [h.chan, h.inRing, h.consumed]
  exact hs

theorem Step.unusedUntilOpen (hstep : Step E s t) (hs : s.unusedUntilOpen) :
    t.unusedUntilOpen := by
  -- data in the ring means that a channel was opened
  have hring : ringEmpty s.conn = false → s.conn.chan.chanOpen = true := by
    intro hfull
    by_contra hclosed
    have hring : s.conn.inRing = newRing :=
      congrArg Usage.inRing (hs (by simpa using hclosed))
    rw [ringEmpty, hring] at hfull
    cases hfull
  cases hstep with
  | disconnect h | authExhausted _ _ h => exact h.frame.unusedUntilOpen hs
  | reply _ _ h | writeLost _ _ h | authAccepted _ _ _ _ h | authRejected _ _ _ _ _ h =>
      exact h.frame.unusedUntilOpen hs
  | firstKexInit _ _ _ h =>
      exact h.keeps (I := Session.unusedUntilOpen) (fun _ _ hu => hu)
        (fun _ _ h => h.frame.unusedUntilOpen) hs
  | firstKexInitFailed _ _ h =>
      exact h.keeps (I := Session.unusedUntilOpen) (fun _ _ hu => hu)
        (fun _ _ h => h.frame.unusedUntilOpen) hs
  | kexInit _ _ hend =>
      exact hend.keeps (I := Session.unusedUntilOpen) (fun _ _ hu => hu)
        (fun _ _ h => h.frame.unusedUntilOpen) (fun _ _ hu => hu) hs
  | exchange _ _ hend =>
      exact hend.keeps (I := Session.unusedUntilOpen) (fun _ _ h => h.frame.unusedUntilOpen)
        (fun _ _ _ hu => hu) hs
  | newKeys _ _ hend =>
      exact hend.keeps (I := Session.unusedUntilOpen) (fun _ _ h => h.frame.unusedUntilOpen)
        (fun _ hu => hu) hs
  -- behind the open there is nothing to show
  | resize _ _ _ _ _ hopen | shell _ hopen | data _ hopen => exact .of_open hopen
  | openChannel _ _ _ _ _ _ _ _ h => exact .of_open (by rw [h.frame.chan])
  | closeReply _ _ hopen _ h => exact .of_open (by rw [h.frame.chan]; exact hopen)
  | read max hfull hcredit =>
      obtain ⟨u, consumed, hsends, rfl⟩ := hcredit.sends
      refine .of_open ?_
      rw [show u.conn.chan = s.conn.chan from hsends.frame.chan]
      exact hring hfull
  | writeData _ hsend _ _ _ h =>
      simp only [canSendNow, Bool.and_eq_true] at hsend
      refine .of_open ?_
      rw [show (_ : Channel).chanOpen = _ from congrArg Channel.chanOpen h.frame.chan]
      exact hsend.1.1.2
  | startClose _ _ hopen _ h =>
      obtain ⟨u, hsends, rfl⟩ := h.sends
      refine .of_open ?_
      rw [show u.conn.chan.chanOpen = _ from congrArg Channel.chanOpen hsends.frame.chan]
      exact hopen
  | _ => exact hs

theorem Visited.unusedUntilOpen (h : Visited E s) : s.unusedUntilOpen :=
  h.invariant (I := Session.unusedUntilOpen) (fun _ _ _ => rfl) fun _ _ => Step.unusedUntilOpen

/-! ## The channel a `CHANNEL_OPEN` makes -/

/-- A `CHANNEL_OPEN` that parses and asks for a session. -/
def opensSession (p : Bytes) : Bool :=
  opensChannel p && nameIs (rStr (rInit (p.drop 1))).val "session"

/-- The channel that it makes, of a connection that was not used before. -/
def openedChannel (p : Bytes) : Channel :=
  let sender := rU32 (rStr (rInit (p.drop 1))).rest
  let window := rU32 sender.rest
  let maxPkt := rU32 window.rest
  { chanOpen := true
    remoteChan := sender.val
    remoteWindow := window.val
    remoteMaxPkt := maxPkt.val
    shellReady := false
    remoteEof := false
    closeSent := false
    closeRecv := false
    cols := 80
    rows := 25 }

theorem handlePacket_opens (hmsg : msgOf p = msgChannelOpen) (hopens : opensSession p = true)
    (hstate : l.conn.state = .conn) (hfirst : l.conn.chan.chanOpen = false)
    (hunused : l.conn.usage = unused) :
    wp (handlePacket E p) (fun _ l' => l'.conn.chan = openedChannel p ∧ l'.conn.inRing = newRing ∧
      l'.conn.consumed = 0) fault l := by
  obtain ⟨hshell, hcols, hrows, hring, hconsumed⟩ := Usage.mk.inj hunused
  simp only [opensSession, opensChannel, Bool.and_eq_true, Bool.not_eq_true'] at hopens
  obtain ⟨hform, hsession⟩ := hopens
  have hne : p ≠ [] := by
    rintro rfl
    cases hmsg
  rw [wp, handlePacket_eq hne (Conn.discards_of_msg _ (by rw [hmsg]; decide))
    (by rw [hstate]; decide), hmsg, ← wp]
  simp +decide only [handleMessage, wp_bind, LinkM.wp_conn, hstate, if_true, if_false]
  simp only [handleChannelOpen, updateChan, hform]
  refine wp.ite (fun hbad => absurd hbad (by decide)) fun _ => ?_
  simp only [wp_bind, LinkM.wp_conn]
  refine wp.ite (fun _ => ?_) fun hno => absurd ⟨hsession, hfirst⟩ hno
  simp only [wp_bind, LinkM.wp_update, LinkM.wp_record]
  refine wp.imp (sendPacket_emits E _ _ fault) fun _ l' hemit => ?_
  rw [hemit.frame.chan, hemit.frame.inRing, hemit.frame.consumed]
  refine ⟨?_, hring, hconsumed⟩
  simp only [openedChannel, hshell, hcols, hrows]

/-- Two connections on which no channel has been opened yet may have seen any messages:
the `CHANNEL_OPEN` of a session leaves both with the same channel. -/
theorem open_forgets_traffic {l₁ l₂ : Link} (h₁ : Visited E₁ l₁.toSession)
    (h₂ : Visited E₂ l₂.toSession) (hstate₁ : l₁.conn.state = .conn)
    (hstate₂ : l₂.conn.state = .conn) (hfirst₁ : l₁.conn.chan.chanOpen = false)
    (hfirst₂ : l₂.conn.chan.chanOpen = false) (hmsg : msgOf p = msgChannelOpen)
    (hopens : opensSession p = true) :
    ∃ r₁ l₁' r₂ l₂', handlePacket E₁ p l₁ = .ok (r₁, l₁') ∧
      handlePacket E₂ p l₂ = .ok (r₂, l₂') ∧ l₁'.conn.chan = l₂'.conn.chan ∧
      l₁'.conn.consumed = l₂'.conn.consumed ∧ l₁'.conn.inRing = l₂'.conn.inRing ∧
      ringEmpty l₁'.conn = true := by
  obtain ⟨r₁, l₁', hrun₁, hchan₁, hring₁, hconsumed₁⟩ :=
    (handlePacket_opens (E := E₁) hmsg hopens hstate₁ hfirst₁ (h₁.unusedUntilOpen hfirst₁)).returns
  obtain ⟨r₂, l₂', hrun₂, hchan₂, hring₂, hconsumed₂⟩ :=
    (handlePacket_opens (E := E₂) hmsg hopens hstate₂ hfirst₂ (h₂.unusedUntilOpen hfirst₂)).returns
  refine ⟨r₁, l₁', r₂, l₂', hrun₁, hrun₂, hchan₁.trans hchan₂.symm,
    hconsumed₁.trans hconsumed₂.symm, hring₁.trans hring₂.symm, ?_⟩
  rw [ringEmpty, hring₁]
  rfl

/-- A client that sends channel messages ahead of the `CHANNEL_OPEN`, and one that does
not. -/
theorem open_forgets_traffic_early : ∃ l₁ l₂ : Link,
    Visited (plainEnv fun _ _ => true) l₁.toSession ∧
    Visited (plainEnv fun _ _ => true) l₂.toSession ∧
    l₁.conn.chan.remoteEof = true ∧ l₂.conn.chan.remoteEof = false ∧
    ∃ r₁ l₁' r₂ l₂',
      handlePacket (plainEnv fun _ _ => true) (channelOpenRequest 1000 100) l₁ = .ok (r₁, l₁') ∧
      handlePacket (plainEnv fun _ _ => true) (channelOpenRequest 1000 100) l₂ = .ok (r₂, l₂') ∧
      l₁'.conn.chan = l₂'.conn.chan := by
  obtain ⟨s₁, hreach₁, hstate₁, hfirst₁, heof₁⟩ := exists_reachable
    (E := plainEnv fun _ _ => true) (P := fun s => s.link.conn.state = .conn ∧
      s.link.conn.chan.chanOpen = false ∧ s.link.conn.chan.remoteEof = true) [.poll]
    [.data (clientAuth "root" "secret" ++ sealedFrame (channelReplyPayload msgChannelEof 0))]
    (by decide +kernel)
  obtain ⟨s₂, hreach₂, hstate₂, hfirst₂, heof₂⟩ := exists_reachable
    (E := plainEnv fun _ _ => true) (P := fun s => s.link.conn.state = .conn ∧
      s.link.conn.chan.chanOpen = false ∧ s.link.conn.chan.remoteEof = false) [.poll]
    [.data (clientAuth "root" "secret")] (by decide +kernel)
  obtain ⟨r₁, l₁', r₂, l₂', hrun₁, hrun₂, hchan, -⟩ := open_forgets_traffic hreach₁.visited
    hreach₂.visited hstate₁ hstate₂ hfirst₁ hfirst₂ (p := channelOpenRequest 1000 100)
    (by decide +kernel) (by decide +kernel)
  exact ⟨s₁.link, s₂.link, hreach₁.visited, hreach₂.visited, heof₁, heof₂, r₁, l₁', r₂, l₂',
    hrun₁, hrun₂, hchan⟩

end EfiSshServer
