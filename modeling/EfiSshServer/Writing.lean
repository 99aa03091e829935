import EfiSshServer.Lib.History
import EfiSshServer.Outbound

/-!
# What `SshWrite` sends

`SshWrite` alternates between waiting for the client, during which any packets are
processed, and sending the next chunk of its buffer.  While it waits nothing goes out on
the channel and the channel stays the same: `Passive` is what the steps of
`ProcessInput` have in common.  So the chunks line up, and what was sent is the buffer as
far as the call got.
-/

namespace EfiSshServer

open StateProgram History

variable {E : Env} {c : Conn} {p buf rest : Bytes} {s t u : Session}

/-! ## Data on the wire -/

/-- The data of this event, if a `CHANNEL_DATA` was sent. -/
def Event.data : Event → Option Bytes
  | .sent p _ => if msgOf p = msgChannelData then some (channelData p) else none
  | _ => none

/-- The data fields of the `CHANNEL_DATA` packets sent, in the order they were sent. -/
def writtenData (log : List Event) : Bytes := (chronicle Event.data log).flatten

theorem writtenData_append (es log : List Event) :
    writtenData (es ++ log) = writtenData log ++ writtenData es := by
  rw [writtenData, chronicle_append, List.flatten_append, writtenData, writtenData]

theorem writtenData_of_none {es : List Event} (h : ∀ e ∈ es, e.data = none) :
    writtenData es = [] := by
  rw [writtenData, chronicle, List.filterMap_eq_nil_iff.mpr h]
  rfl

theorem Event.data_sent (hmsg : msgOf p = msgChannelData) :
    (Event.sent p c).data = some (channelData p) :=
  if_pos hmsg

/-- The channel that a `CHANNEL_DATA` is addressed to. -/
def dataRecipient (p : Bytes) : UInt32 := getU32 (p.drop 1)

/-! ## Waiting -/

/-- Packets were processed: nothing was sent on the channel, and a channel that was open
is still the same one. -/
structure Passive (s t : Session) : Prop where
  log : ∃ es, t.log = es ++ s.log ∧ ∀ e ∈ es, e.data = none
  chan : s.conn.chan.chanOpen = true → t.conn.chan.chanOpen = true ∧
    t.conn.chan.remoteChan = s.conn.chan.remoteChan ∧
    t.conn.chan.remoteMaxPkt = s.conn.chan.remoteMaxPkt

theorem Passive.refl (s : Session) : Passive s s := ⟨⟨[], rfl, by simp⟩, fun h => ⟨h, rfl, rfl⟩⟩

theorem Passive.trans (h : Passive s t) (h' : Passive t u) : Passive s u := by
  obtain ⟨es, hes, hnone⟩ := h.log
  obtain ⟨es', hes', hnone'⟩ := h'.log
  refine ⟨⟨es' ++ es, by rw [hes', hes, List.append_assoc], ?_⟩, fun hopen => ?_⟩
  · exact List.forall_mem_append.mpr ⟨hnone', hnone⟩
  · obtain ⟨hopen₁, hchan₁, hmax₁⟩ := h.chan hopen
    obtain ⟨hopen₂, hchan₂, hmax₂⟩ := h'.chan hopen₁
    exact ⟨hopen₂, hchan₂.trans hchan₁, hmax₂.trans hmax₁⟩

/-- The channel is left alone, and the events are no data. -/
theorem Passive.of_chan (es : List Event) (hchan : t.conn.chan = s.conn.chan)
    (hlog : t.log = es ++ s.log) (hes : ∀ e ∈ es, e.data = none) : Passive s t := by
  refine ⟨⟨es, hlog, hes⟩, fun hopen => ?_⟩
  rw [hchan]
  exact ⟨hopen, rfl, rfl⟩

theorem Sends.passive {P : UInt8 → Prop} (h : Sends P s t) (hP : ¬ P msgChannelData) :
    Passive s t := by
  obtain ⟨es, hes, hsend⟩ := h.log
  refine .of_chan es h.frame.chan hes fun e he => ?_
  cases e with
  | sent p c =>
      refine if_neg fun hmsg => hP ?_
      rw [← hmsg]
      exact ((hsend _ he).2 p c rfl).1
  | _ => rfl

/-- What arrives is answered passively. -/
theorem StepOf.passive (h : StepOf False E s t) : Passive s t := by
  have hsame : ∀ c : Conn, c.chan = s.conn.chan → Passive s ⟨c, s.log⟩ := fun c hchan =>
    .of_chan [] hchan rfl (by simp)
  have hone : ∀ (c : Conn) (e : Event), c.chan = s.conn.chan → e.data = none →
      Passive s ⟨c, e :: s.log⟩ := fun c e hchan he =>
    .of_chan [e] hchan rfl (by simpa using he)
  have harrived : ∀ p packet mac, Passive s (s.dispatched p packet mac) := fun _ _ _ =>
    hone _ _ rfl rfl
  have hkx : ∀ u kx, Passive s u → Passive s (u.withKx kx) := fun u kx hu => ⟨hu.log, hu.chan⟩
  cases h with
  | decrypt | close | setUser | acceptVersion => exact hsame _ rfl
  | dispatch p packet mac => exact harrived p packet mac
  | skipGuess => exact hkx _ _ (harrived _ _ _)
  | disconnect h => exact h.sends.passive (by decide)
  | reply hq hp h =>
      refine h.sends.passive fun hmsg => ?_
      exact absurd (hmsg ▸ hp.msg_mem) (by decide)
  -- the key exchange
  | firstKexInit _ _ _ h =>
      exact h.keeps hkx (fun _ _ hsends hu => hu.trans (hsends.passive (by decide))) (.refl s)
  | firstKexInitFailed _ _ h =>
      exact h.keeps hkx (fun _ _ hsends hu => hu.trans (hsends.passive (by decide))) (.refl s)
  | kexInit _ _ hend =>
      exact hend.keeps hkx (fun _ _ hsends hu => hu.trans (hsends.passive (by decide)))
        (fun _ _ hu => ⟨hu.log, hu.chan⟩) (harrived _ _ _)
  | exchange _ _ hend =>
      exact hend.keeps (I := Passive s)
        (fun _ _ hsends hu => hu.trans (hsends.passive (by decide)))
        (fun _ _ _ hu => ⟨hu.log, hu.chan⟩) (hone _ _ rfl rfl)
  | newKeys _ _ hend =>
      exact hend.keeps (fun _ _ hsends hu => hu.trans (hsends.passive (by decide)))
        (fun _ hu => ⟨hu.log, hu.chan⟩) (harrived _ _ _)
  -- authentication
  | authAccepted _ _ _ _ h | authRejected _ _ _ _ _ h =>
      refine Passive.trans ?_ (h.sends.passive (by simp; decide))
      exact hone _ _ rfl rfl
  | authExhausted _ _ h =>
      refine Passive.trans ?_ (h.sends.passive (by decide))
      exact hone _ _ rfl rfl
  -- the channel
  | openChannel sender window maxPkt _ _ _ _ hclosed h =>
      refine Passive.trans ⟨⟨[_], rfl, by simp [Event.data]⟩, fun hopen => ?_⟩
        (h.sends.passive (by simp; decide))
      rw [hclosed] at hopen
      cases hopen
  | resize cols rows => exact ⟨⟨[], rfl, by simp⟩, fun hopen => ⟨hopen, rfl, rfl⟩⟩
  | shell => exact ⟨⟨[], rfl, by simp⟩, fun hopen => ⟨hopen, rfl, rfl⟩⟩
  | data d => exact hone _ _ rfl rfl
  | adjust add => exact ⟨⟨[_], rfl, by simp [Event.data]⟩, fun hopen => ⟨hopen, rfl, rfl⟩⟩
  | clientEof => exact ⟨⟨[], rfl, by simp⟩, fun hopen => ⟨hopen, rfl, rfl⟩⟩
  | clientClose => exact ⟨⟨[], rfl, by simp⟩, fun hopen => ⟨hopen, rfl, rfl⟩⟩
  | closeReply _ _ _ _ h =>
      refine Passive.trans ?_ (h.sends.passive ?_)
      · exact ⟨⟨[], rfl, by simp⟩, fun hopen => ⟨hopen, rfl, rfl⟩⟩
      · rw [msgOf_channelReplyPayload]
        decide
  -- the calls of the API do not act here
  | @versionSent hcall | @accepted hcall | @readEnd hcall | @read hcall
  | @writeData hcall | @writeLost hcall | @startClose hcall => exact hcall.out.elim

theorem StepsOf.passive (h : StepsOf False E s t) : Passive s t := by
  induction h with
  | refl => exact .refl s
  | tail _ h ih => exact ih.trans h.passive

/-! ## Chunks -/

/-- A `CHANNEL_DATA` sent at a good moment: to the right channel, while data may be sent.
It is empty only if the client allows no data in a packet. -/
structure Chunk (ch : Channel) (p : Bytes) (c : Conn) : Prop where
  chanOpen : ch.chanOpen = true
  recipient : dataRecipient p = ch.remoteChan
  sendable : canSendNow c = true
  notClosed : c.chan.closeRecv = false
  nonempty_iff : 1 ≤ (channelData p).length ↔ ch.remoteMaxPkt ≠ 0

/-- What `SshWrite` does with the buffer `buf` before it returns `ret`: what it has
written so far is a prefix of the buffer. -/
def Writes (buf : Bytes) (s t : Session) (ret : Option Int) : Prop :=
  ∃ es, t.log = es ++ s.log ∧ writtenData es <+: buf ∧ (ret = some 0 → writtenData es = buf) ∧
    ∀ p c, Event.sent p c ∈ es → msgOf p = msgChannelData → Chunk s.conn.chan p c

/-- Nothing is written any more. -/
theorem Passive.writes (h : Passive s t) {ret : Option Int} (hret : ret ≠ some 0) :
    Writes buf s t ret := by
  obtain ⟨es, hes, hnone⟩ := h.log
  refine ⟨es, hes, ?_, fun h => absurd h hret, fun p c hmem hmsg => ?_⟩
  · rw [writtenData_of_none hnone]
    exact List.nil_prefix
  · have hdata := hnone _ hmem
    rw [Event.data_sent hmsg] at hdata
    cases hdata

/-- Waiting comes before writing. -/
theorem Writes.after_passive {ret : Option Int} (h : Passive s t)
    (hopen : s.conn.chan.chanOpen = true) (hwrites : Writes buf t u ret) : Writes buf s u ret := by
  obtain ⟨es, hes, hnone⟩ := h.log
  obtain ⟨es', hes', hprefix, hall, hchunks⟩ := hwrites
  obtain ⟨-, hchan, hmax⟩ := h.chan hopen
  have hwritten : writtenData (es' ++ es) = writtenData es' := by
    rw [writtenData_append, writtenData_of_none hnone, List.nil_append]
  refine ⟨es' ++ es, by rw [hes', hes, List.append_assoc], ?_, ?_, fun p c hmem hmsg => ?_⟩
  · rw [hwritten]
    exact hprefix
  · rw [hwritten]
    exact hall
  · rcases List.mem_append.mp hmem with hmem | hmem
    · obtain ⟨-, hrecipient, hsendable, hend, hpos⟩ := hchunks p c hmem hmsg
      rw [hchan] at hrecipient
      rw [hmax] at hpos
      exact ⟨hopen, hrecipient, hsendable, hend, hpos⟩
    · have hdata := hnone _ hmem
      rw [Event.data_sent hmsg] at hdata
      cases hdata

/-- A chunk has gone out. -/
structure SendsChunk (d : Bytes) (s t : Session) : Prop where
  log : ∃ p, t.log = .sent p s.conn :: s.log ∧ msgOf p = msgChannelData ∧ channelData p = d ∧
    Chunk s.conn.chan p s.conn
  chan : t.conn.chan.remoteChan = s.conn.chan.remoteChan ∧
    t.conn.chan.remoteMaxPkt = s.conn.chan.remoteMaxPkt

theorem Writes.after_chunk {d : Bytes} {ret : Option Int} (h : SendsChunk d s t)
    (hwrites : Writes rest t u ret) : Writes (d ++ rest) s u ret := by
  obtain ⟨p, hlog, hmsg, hdata, hchunk⟩ := h.log
  obtain ⟨es, hes, hprefix, hall, hchunks⟩ := hwrites
  have hone : writtenData [Event.sent p s.conn] = d := by
    rw [writtenData, chronicle, List.filterMap_cons_some (Event.data_sent hmsg), hdata]
    simp
  have hwritten : writtenData (es ++ [.sent p s.conn]) = d ++ writtenData es := by
    rw [writtenData_append, hone]
  refine ⟨es ++ [.sent p s.conn], by rw [hes, hlog, List.append_assoc, List.singleton_append],
    ?_, fun hret => ?_, fun p' c hmem hmsg' => ?_⟩
  · rw [hwritten]
    exact List.prefix_append_right_inj d |>.mpr hprefix
  · rw [hwritten, hall hret]
  · rcases List.mem_append.mp hmem with hmem | hmem
    · obtain ⟨-, hrecipient, hsendable, hend, hpos⟩ := hchunks p' c hmem hmsg'
      rw [h.chan.1] at hrecipient
      rw [h.chan.2] at hpos
      exact ⟨hchunk.chanOpen, hrecipient, hsendable, hend, hpos⟩
    · cases List.mem_singleton.mp hmem
      exact hchunk

/-- The last chunk. -/
theorem SendsChunk.writes {ret : Option Int} (h : SendsChunk buf s t) : Writes buf s t ret := by
  have hnothing : Writes [] t t ret := ⟨[], rfl, List.prefix_rfl, fun _ => rfl, by simp⟩
  have hwrites := hnothing.after_chunk h
  rwa [List.append_nil] at hwrites

theorem dataRecipient_channelDataPayload (remoteChan : UInt32) (d : Bytes) :
    dataRecipient (channelDataPayload remoteChan d).data = remoteChan := by
  have hhead : ((wInit sshPlBuf).wByte msgChannelData).wU32 remoteChan =
      ⟨msgChannelData :: putU32 remoteChan, sshPlBuf, false, false⟩ := rfl
  have hdata : ∃ tail, (channelDataPayload remoteChan d).data =
      msgChannelData :: (putU32 remoteChan ++ tail) := by
    have hfits : (msgChannelData :: putU32 remoteChan).length + 4 ≤ sshPlBuf := by
      rw [List.length_cons, length_putU32]
      decide
    have hword : ∃ tail, msgChannelData :: (putU32 remoteChan ++ putU32 (UInt32.ofNat d.length)) =
        msgChannelData :: (putU32 remoteChan ++ tail) := ⟨_, rfl⟩
    rw [channelDataPayload, hhead, WBuf.wStr, WBuf.wU32_eq _ hfits, WBuf.wBytes,
      if_neg Bool.false_ne_true]
    split
    · exact hword
    · split
      · exact hword
      · exact ⟨putU32 (UInt32.ofNat d.length) ++ d, by simp⟩
  obtain ⟨tail, htail⟩ := hdata
  rw [htail, dataRecipient, List.drop_succ_cons, List.drop_zero, getU32_putU32_append]

theorem one_le_toNat_iff (v : UInt32) : 1 ≤ v.toNat ↔ v ≠ 0 := by
  rw [Nat.one_le_iff_ne_zero, ne_eq, ne_eq, ← UInt32.toNat_inj]
  rfl

/-- Of the four bounds on a chunk only the client's packet limit can be zero. -/
theorem one_le_chunkLen_iff {len : ℕ} (hlen : 0 < len) (hwindow : c.chan.remoteWindow ≠ 0) :
    1 ≤ chunkLen c len ↔ c.chan.remoteMaxPkt ≠ 0 := by
  have hwindow := (one_le_toNat_iff _).mpr hwindow
  rw [← one_le_toNat_iff, chunkLen, sshDataChunk]
  omega

theorem canSendNow_chanOpen (h : canSendNow c = true) : c.chan.chanOpen = true := by
  simp only [canSendNow, Bool.and_eq_true] at h
  exact h.1.1.2

theorem writeChunk_sends {l : Link} {fault : Fault → Prop} (hbuf : buf ≠ []) :
    wp (writeChunk E buf) (fun left l' =>
      (left = none → Passive l.toSession l'.toSession) ∧
        ∀ rest, left = some rest → ∃ d, buf = d ++ rest ∧
          SendsChunk d l.toSession l'.toSession) fault l := by
  have hquiet : Passive l.toSession l.toSession := .refl _
  simp only [writeChunk, updateChan, wp_bind, LinkM.wp_conn, LinkM.wp_update, wp_ite, wp_pure]
  refine ⟨fun _ => ⟨fun _ => hquiet, fun _ h => by cases h⟩, fun hgo => ?_⟩
  refine ⟨fun _ => ⟨fun _ => hquiet, fun _ h => by cases h⟩, fun _ => ?_⟩
  simp only [not_or, Bool.not_eq_false, Bool.not_eq_true] at hgo
  obtain ⟨hsend, hclose, hwindow⟩ := hgo
  refine wp.imp (sendPacket_emits E _ l fault) fun ret l' h => ⟨fun hret => ?_, fun hret => ?_⟩
  · obtain ⟨-, hlog⟩ := h.log_eq.resolve_left fun hzero => hret hzero.1
    exact ⟨fun _ => .of_chan [_] h.frame.chan hlog (by simp [Event.data]), fun _ h => by cases h⟩
  · rw [not_not.mp hret] at h
    refine ⟨by simp, ?_⟩
    rintro rest ⟨⟩
    have hlength : (buf.take (chunkLen l.conn buf.length)).length = chunkLen l.conn buf.length :=
      List.length_take_of_le (chunkLen_le l.conn buf.length).2.2
    have hdata := channelData_channelDataPayload l.conn.chan.remoteChan
      (d := buf.take (chunkLen l.conn buf.length))
      (by rw [hlength]; exact (chunkLen_le l.conn buf.length).2.1.trans (Nat.min_le_right _ _))
    refine ⟨buf.take (chunkLen l.conn buf.length), (List.take_append_drop _ _).symm, ?_, ?_⟩
    · refine ⟨_, (h.log_eq.resolve_right fun hne => hne.1 rfl).2, msgOf_channelDataPayload _ _,
        hdata, canSendNow_chanOpen hsend, dataRecipient_channelDataPayload _ _, hsend, hclose, ?_⟩
      rw [hdata, hlength]
      exact one_le_chunkLen_iff (List.length_pos_iff.mpr hbuf) hwindow
    · have hchan := congrArg Channel.remoteChan h.frame.chan
      have hmax := congrArg Channel.remoteMaxPkt h.frame.chan
      exact ⟨hchan, hmax⟩

/-- The clock changes nothing that matters here. -/
theorem rtNow_sound {s : Server} {fault : Fault → Prop} (hs : Sound s.toReceiver) :
    wp (ServerM.onLink (rtNow E)) (fun _ s' => s'.link.toSession = s.link.toSession ∧
      Sound s'.toReceiver) fault s := by
  rw [ServerM.wp_onLink]
  refine wp.imp rtNow_same fun _ l' h => ⟨h, ?_, fun hlen => ?_⟩
  · have hconn : l'.conn = s.link.conn := congrArg Session.conn h
    rw [hconn]
    exact hs.buffers
  · have hconn : l'.conn = s.link.conn := congrArg Session.conn h
    rw [hconn]
    exact hs.header hlen

/-! ## The two loops -/

/-- The inner wait of `SshWrite`: `none` while it is running, and then whether the call
goes on. -/
def waitRounds (E : Env) : ℕ → (start waited : ℕ) → ServerM (Option Bool)
  | 0, _, _ => return none
  | rounds + 1, start, waited => do
      if mustWait (← ServerM.conn) then
        let (ret, progressed) ← processInput E
        if ret < 0 then return some false
        if progressed then waitRounds E rounds start waited
        else if ← ServerM.onLink (rtTimedOut E start (waited + 1) 1000 sshWriteTimeoutMs) then
          return some false
        else waitRounds E rounds start (waited + 1)
      else return some true

/-- What `SshWrite` does behind a wait. -/
def afterWait (E : Env) (rounds : ℕ) (buf : Bytes) : ServerM (Option Int) := do
  match ← ServerM.onLink (writeChunk E buf) with
  | none => return some (-1)
  | some [] => return some 0
  | some rest => writeRounds E rounds (← ServerM.onLink (rtNow E)) 0 rest

/-- One test of the wait, and one poll. -/
def waitRound {α : Type} (E : Env) (start waited : ℕ) (stop : ServerM α) (again : ℕ → ServerM α)
    (go : ServerM α) : ServerM α := do
  if mustWait (← ServerM.conn) then
    let (ret, progressed) ← processInput E
    if ret < 0 then stop
    else if progressed then again waited
    else if ← ServerM.onLink (rtTimedOut E start (waited + 1) 1000 sshWriteTimeoutMs) then stop
    else again (waited + 1)
  else go

theorem waitRounds_succ (rounds start waited : ℕ) : waitRounds E (rounds + 1) start waited =
    waitRound E start waited (pure (some false)) (fun waited => waitRounds E rounds start waited)
      (pure (some true)) := rfl

theorem writeRounds_succ (rounds start waited : ℕ) : writeRounds E (rounds + 1) start waited buf =
    waitRound E start waited (pure (some (-1)))
      (fun waited => writeRounds E rounds start waited buf) (afterWait E rounds buf) := rfl

/-- A round polls passively, and only while the channel is open. -/
theorem wp_waitRound {α : Type} {s : Server} {start waited : ℕ} {stop go : ServerM α}
    {again : ℕ → ServerM α} {post : α → Server → Prop} (hs : Sound s.toReceiver)
    (hstop : ∀ s', Passive s.link.toSession s'.link.toSession → wp stop post (fun _ => False) s')
    (hagain : ∀ waited' s', s.link.conn.chan.chanOpen = true → Sound s'.toReceiver →
      Passive s.link.toSession s'.link.toSession → wp (again waited') post (fun _ => False) s')
    (hgo : wp go post (fun _ => False) s) :
    wp (waitRound E start waited stop again go) post (fun _ => False) s := by
  simp only [waitRound, wp_bind, ServerM.wp_conn]
  refine wp.ite (fun hwait => ?_) fun _ => hgo
  obtain ⟨hstate, hopen⟩ : s.link.conn.state = .conn ∧ s.link.conn.chan.chanOpen = true := by
    simp only [mustWait, Bool.and_eq_true, decide_eq_true_iff] at hwait
    exact ⟨hwait.1.1.1.1, hwait.1.1.1.2⟩
  simp only [wp_bind]
  refine wp.imp (processInput_moves (A := False) hs fun hv => ?_) fun out s₁ h₁ => ?_
  · rw [hstate] at hv
    cases hv
  have hs₁ := h₁.sound hs
  refine wp.ite (fun _ => hstop s₁ h₁.1.passive) fun _ => ?_
  refine wp.ite (fun _ => hagain _ s₁ hopen hs₁ h₁.1.passive) fun _ => ?_
  simp only [wp_bind]
  refine wp.imp (ServerM.onLink_moves hs₁.header (rtTimedOut_steps (A := False) _ _ _ _))
    fun late s₂ h₂ => ?_
  have hpassive := h₁.1.passive.trans h₂.1.passive
  exact wp.ite (fun _ => hstop s₂ hpassive) fun _ => hagain _ s₂ hopen (h₂.sound hs₁) hpassive

theorem onLink_writeChunk {s : Server} (hs : Sound s.toReceiver) (hbuf : buf ≠ []) :
    wp (ServerM.onLink (writeChunk E buf)) (fun left s' => Sound s'.toReceiver ∧
      (left = none → Passive s.link.toSession s'.link.toSession) ∧
        ∀ rest, left = some rest → ∃ d, buf = d ++ rest ∧
          SendsChunk d s.link.toSession s'.link.toSession) (fun _ => False) s := by
  have hmoves := ServerM.onLink_moves (E := E) hs.header
    (writeChunk_steps buf : wp (writeChunk E buf) _ (fun _ => False) s.link)
  have hsends : wp (ServerM.onLink (writeChunk E buf)) (fun left s' =>
      (left = none → Passive s.link.toSession s'.link.toSession) ∧
        ∀ rest, left = some rest → ∃ d, buf = d ++ rest ∧
          SendsChunk d s.link.toSession s'.link.toSession) (fun _ => False) s := by
    rw [ServerM.wp_onLink]
    exact writeChunk_sends hbuf
  exact (hmoves.and hsends).imp fun left s' ⟨h, hsends⟩ => ⟨h.sound hs, hsends⟩

theorem waitRounds_passive {s : Server} (rounds start waited : ℕ) (hs : Sound s.toReceiver) :
    wp (waitRounds E rounds start waited) (fun ret s' =>
      Passive s.link.toSession s'.link.toSession ∧ (ret = some true → Sound s'.toReceiver ∧
        (s'.link.conn.chan.chanOpen = true → s.link.conn.chan.chanOpen = true)))
      (fun _ => False) s := by
  induction rounds generalizing s waited with
  | zero => exact ⟨.refl _, nofun⟩
  | succ rounds ih =>
      rw [waitRounds_succ]
      refine wp_waitRound hs (fun s' hpassive => ⟨hpassive, nofun⟩)
        (fun waited' s' hopen hs' h => ?_) ⟨.refl _, fun _ => ⟨hs, id⟩⟩
      exact wp.imp (ih waited' hs') fun _ _ h' =>
        ⟨h.trans h'.1, fun hret => ⟨(h'.2 hret).1, fun _ => hopen⟩⟩

theorem writeRounds_writes {s : Server} (rounds start waited : ℕ) (hs : Sound s.toReceiver)
    (hbuf : buf ≠ []) :
    wp (writeRounds E rounds start waited buf)
      (fun ret s' => Writes buf s.link.toSession s'.link.toSession ret) (fun _ => False) s := by
  induction rounds generalizing s start waited buf with
  | zero => exact (Passive.refl _).writes (by simp)
  | succ rounds ih =>
      rw [writeRounds_succ]
      refine wp_waitRound hs (fun s' hpassive => hpassive.writes (by simp))
        (fun waited' s' hopen hs' hpassive => ?_) ?_
      · exact wp.imp (ih start waited' hs' hbuf) fun _ _ h => h.after_passive hpassive hopen
      simp only [afterWait, wp_bind]
      refine wp.imp (onLink_writeChunk hs hbuf) fun left s₁ ⟨hs₁, hnone, hsome⟩ => ?_
      split
      · exact (hnone rfl).writes (by simp)
      · obtain ⟨d, hd, hchunk⟩ := hsome [] rfl
        rw [List.append_nil] at hd
        exact (hd ▸ hchunk).writes
      · next rest hrest _ =>
        obtain ⟨d, rfl, hchunk⟩ := hsome rest rfl
        simp only [wp_bind]
        refine wp.imp (rtNow_sound hs₁) fun now s₂ ⟨heq, hs₂⟩ => ?_
        refine wp.imp (ih now 0 hs₂ hrest) fun ret s₃ h₃ => ?_
        rw [heq] at h₃
        exact h₃.after_chunk hchunk

theorem sshWrite_writes {s : Server} (rounds : ℕ) (hs : Sound s.toReceiver) :
    wp (sshWrite E rounds buf)
      (fun ret s' => Writes buf s.link.toSession s'.link.toSession ret) (fun _ => False) s := by
  simp only [sshWrite]
  refine wp.ite (fun hnil => ?_) fun hbuf => ?_
  · exact ⟨[], rfl, List.nil_prefix, fun _ => hnil.symm, by simp⟩
  · simp only [wp_bind]
    refine wp.imp (rtNow_sound hs) fun now s₁ h => ?_
    obtain ⟨heq, hs₁⟩ := h
    rw [← heq]
    exact writeRounds_writes _ _ _ hs₁ hbuf

/-- **Faithful writes.**  Whatever the client does meanwhile, what `SshWrite` has sent is
a prefix of the buffer, and all of it once it returns 0.  All of it goes to the client's
channel, at moments when data may be sent and the client has not closed. -/
theorem sshWrite_faithful {s : Server} (h : Reachable E s) (rounds : ℕ) (buf : Bytes) :
    wp (sshWrite E rounds buf) (fun ret s' => ∃ es, s'.link.log = es ++ s.link.log ∧
        (ret = some 0 → writtenData es = buf) ∧ writtenData es <+: buf ∧
        ∀ p c, Event.sent p c ∈ es → msgOf p = msgChannelData →
          dataRecipient p = s.link.conn.chan.remoteChan ∧ canSendNow c = true ∧
            c.chan.closeRecv = false)
      (fun _ => False) s := by
  refine wp.imp (sshWrite_writes rounds h.sound) fun ret s' ⟨es, hes, hprefix, hall, hchunks⟩ => ?_
  refine ⟨es, hes, hall, hprefix, fun p c hmem hmsg => ?_⟩
  obtain ⟨-, hrecipient, hsendable, hclose, -⟩ := hchunks p c hmem hmsg
  exact ⟨hrecipient, hsendable, hclose⟩

/-- A client that opens its channel for 1000 bytes in packets of at most 100. -/
theorem sshWrite_faithful_login : ∃ s, Reachable (plainEnv fun _ _ => true) s ∧
    s.link.conn.chan.remoteMaxPkt ≠ 0 ∧
    wp (sshWrite (plainEnv fun _ _ => true) 10 (ascii "hello")) (fun ret s' =>
        ∃ es, s'.link.log = es ++ s.link.log ∧
          (ret = some 0 → writtenData es = ascii "hello") ∧ writtenData es <+: ascii "hello" ∧
          ∀ p c, Event.sent p c ∈ es → msgOf p = msgChannelData →
            dataRecipient p = s.link.conn.chan.remoteChan ∧ canSendNow c = true ∧
              c.chan.closeRecv = false)
      (fun _ => False) s := by
  obtain ⟨s, hreach, hmax⟩ := exists_reachable (E := plainEnv fun _ _ => true)
    (P := fun s => s.link.conn.chan.remoteMaxPkt ≠ 0) [.poll]
    [.data (clientLogin "root" "secret")] (by decide +kernel)
  exact ⟨s, hreach, hmax, sshWrite_faithful hreach 10 (ascii "hello")⟩

/-! ## Progress -/

/-- The channel was opened with its packet limit. -/
def OpenedWithLimit (s : Session) : Prop :=
  s.conn.chan.chanOpen = true → ∃ window, Event.opened window s.conn.chan.remoteMaxPkt ∈ s.log

theorem OpenedWithLimit.congr (hs : OpenedWithLimit s)
    (hopen : t.conn.flow.chanOpen = s.conn.flow.chanOpen)
    (hmax : t.conn.flow.remoteMaxPkt = s.conn.flow.remoteMaxPkt)
    (hlog : ∃ es, t.log = es ++ s.log) : OpenedWithLimit t := by
  intro h
  obtain ⟨es, hes⟩ := hlog
  obtain ⟨window, hmem⟩ := hs (hopen.symm.trans h)
  refine ⟨window, ?_⟩
  rw [show t.conn.chan.remoteMaxPkt = s.conn.chan.remoteMaxPkt from hmax, hes]
  exact List.mem_append_right _ hmem

theorem FlowStep.openedWithLimit (h : FlowStep s t) (hs : OpenedWithLimit s) :
    OpenedWithLimit t := by
  cases h with
  | quiet h =>
      obtain ⟨es, hes, -⟩ := h.log
      exact hs.congr (by rw [h.flow]) (by rw [h.flow]) ⟨es, hes⟩
  | opened window maxPkt _ hflow hlog =>
      intro _
      have hmax : t.conn.chan.remoteMaxPkt = maxPkt := congrArg Flow.remoteMaxPkt hflow
      rw [hmax, hlog]
      exact ⟨window, List.mem_cons_self⟩
  | received _ _ hflow hlog | adjusted _ hflow hlog | readEnd _ hflow hlog
  | wrote _ _ _ _ hflow hlog | answered _ _ _ _ hflow hlog | farewell _ _ hflow hlog =>
      exact hs.congr (by rw [hflow]) (by rw [hflow]) ⟨[_], hlog⟩
  | popped _ _ hflow hlog =>
      exact hs.congr (by rw [hflow]; rfl) (by rw [hflow]; rfl) ⟨[_], hlog⟩
  | credited _ _ hflow hlog =>
      obtain ⟨c, hlog⟩ := hlog
      exact hs.congr (by rw [hflow]; rfl) (by rw [hflow]; rfl) ⟨[_, _], hlog⟩
  | creditLost _ _ hflow hlog =>
      obtain ⟨p, c, hlog⟩ := hlog
      exact hs.congr (by rw [hflow]; rfl) (by rw [hflow]; rfl) ⟨[_, _], hlog⟩
  | closed _ _ hflow hlog =>
      obtain ⟨p, -, ⟨c, hlog⟩ | ⟨c, hlog⟩⟩ := hlog
      · exact hs.congr (by rw [hflow]) (by rw [hflow]) ⟨[_], hlog⟩
      · exact hs.congr (by rw [hflow]) (by rw [hflow]) ⟨[_], hlog⟩

theorem Reachable.openedWithLimit {s : Server} (h : Reachable E s) :
    OpenedWithLimit s.link.toSession :=
  h.flow_invariant (fun _ _ => nofun) fun _ _ => FlowStep.openedWithLimit

/-- Nonempty pieces are no more than the bytes they make up. -/
theorem length_le_length_flatten {pieces : List Bytes} (h : ∀ d ∈ pieces, d ≠ []) :
    pieces.length ≤ pieces.flatten.length := by
  induction pieces with
  | nil => exact Nat.le_refl 0
  | cons d pieces ih =>
      obtain ⟨hd, hpieces⟩ := List.forall_mem_cons.mp h
      have hpos := List.length_pos_iff.mpr hd
      have hle := ih hpieces
      rw [List.flatten_cons, List.length_append, List.length_cons]
      omega

/-- Each packet of a call carries at least one byte and no more than were left, and there
are no more packets than bytes. -/
structure Paced (buf : Bytes) (es : List Event) : Prop where
  each : ∀ newer older p c, es = newer ++ Event.sent p c :: older → msgOf p = msgChannelData →
    1 ≤ (channelData p).length ∧ (channelData p).length ≤ buf.length - (writtenData older).length
  count : (chronicle Event.data es).length ≤ buf.length

theorem Writes.paced {ret : Option Int} (h : Writes buf s t ret)
    (hmax : s.conn.chan.chanOpen = true → s.conn.chan.remoteMaxPkt ≠ 0) :
    ∃ es, t.log = es ++ s.log ∧ Paced buf es := by
  obtain ⟨es, hes, hprefix, -, hchunks⟩ := h
  have hpos : ∀ p c, Event.sent p c ∈ es → msgOf p = msgChannelData →
      1 ≤ (channelData p).length := fun p c hmem hmsg =>
    (hchunks p c hmem hmsg).nonempty_iff.mpr (hmax (hchunks p c hmem hmsg).chanOpen)
  refine ⟨es, hes, fun newer older p c heq hmsg => ⟨hpos p c ?_ hmsg, ?_⟩, ?_⟩
  · rw [heq]
    exact List.mem_append_right _ List.mem_cons_self
  · have hlength := hprefix.length_le
    have hsplit : writtenData es = writtenData older ++ channelData p ++ writtenData newer := by
      rw [heq, writtenData_append, ← List.singleton_append, writtenData_append]
      simp [writtenData, chronicle, Event.data_sent hmsg]
    rw [hsplit, List.length_append, List.length_append] at hlength
    omega
  · refine (length_le_length_flatten fun d hd => ?_).trans hprefix.length_le
    obtain ⟨e, he, hdata⟩ := List.mem_filterMap.mp (List.mem_reverse.mp hd)
    cases e with
    | sent p c =>
        by_cases hmsg : msgOf p = msgChannelData
        · rw [Event.data_sent hmsg] at hdata
          cases hdata
          exact List.ne_nil_of_length_pos (hpos p c he hmsg)
        · rw [Event.data, if_neg hmsg] at hdata
          cases hdata
    | _ => cases hdata

/-! ## Returning -/

/-- The round takes one of its three ways, or it faults; which one does not depend on
what lies there. -/
inductive WaitRound (E : Env) (start waited : ℕ) (t : Server) : Prop
  | stop (t' : Server) (h : ∀ {α : Type} (stop : ServerM α) again go,
      waitRound E start waited stop again go t = stop t')
  | again (waited' : ℕ) (t' : Server) (h : ∀ {α : Type} (stop : ServerM α) again go,
      waitRound E start waited stop again go t = again waited' t')
  | go (h : ∀ {α : Type} (stop : ServerM α) again go,
      waitRound E start waited stop again go t = go t)
  | fault (f : Fault) (h : ∀ {α : Type} (stop : ServerM α) again go,
      waitRound E start waited stop again go t = .error f)

theorem waitRound_cases (E : Env) (start waited : ℕ) (t : Server) : WaitRound E start waited t := by
  have hconn : ServerM.conn t = .ok (t.link.conn, t) := rfl
  -- a wait looks at the input and then at the clock; every branch is one of the four outcomes
  by_cases hwait : mustWait t.link.conn = true
  swap
  · exact .go fun stop again go => by rw [waitRound, bind_ok hconn, if_neg hwait]
  cases hinput : processInput E t with
  | error f =>
      exact .fault f fun stop again go => by
        rw [waitRound, bind_ok hconn, if_pos hwait, bind_error hinput]
  | ok out =>
      obtain ⟨⟨ret, progressed⟩, t₁⟩ := out
      by_cases hret : ret < 0
      · exact .stop t₁ fun stop again go => by
          rw [waitRound, bind_ok hconn, if_pos hwait, bind_ok hinput]
          simp only [if_pos hret]
      by_cases hprogressed : progressed = true
      · exact .again waited t₁ fun stop again go => by
          rw [waitRound, bind_ok hconn, if_pos hwait, bind_ok hinput]
          simp only [if_neg hret, if_pos hprogressed]
      cases htime : ServerM.onLink (rtTimedOut E start (waited + 1) 1000 sshWriteTimeoutMs) t₁ with
      | error f =>
          exact .fault f fun stop again go => by
            rw [waitRound, bind_ok hconn, if_pos hwait, bind_ok hinput]
            simp only [if_neg hret, if_neg hprogressed]
            rw [bind_error htime]
      | ok out =>
          obtain ⟨late, t₂⟩ := out
          cases late with
          | true =>
              exact .stop t₂ fun stop again go => by
                rw [waitRound, bind_ok hconn, if_pos hwait, bind_ok hinput]
                simp only [if_neg hret, if_neg hprogressed]
                rw [bind_ok htime]
                rfl
          | false =>
              exact .again (waited + 1) t₂ fun stop again go => by
                rw [waitRound, bind_ok hconn, if_pos hwait, bind_ok hinput]
                simp only [if_neg hret, if_neg hprogressed]
                rw [bind_ok htime]
                rfl

/-- A wait that returns takes up some of the rounds, whatever comes behind it. -/
theorem writeRounds_of_wait {k start waited : ℕ} {b : Bool} {t t' : Server}
    (h : waitRounds E k start waited t = .ok (some b, t')) : ∃ k', ∀ rounds,
      writeRounds E (k' + (rounds + 1)) start waited buf t =
        if b then afterWait E rounds buf t' else .ok (some (-1), t') := by
  induction k generalizing t waited with
  | zero => cases h
  | succ k ih =>
      rw [waitRounds_succ] at h
      cases waitRound_cases E start waited t with
      | stop t₁ hround =>
          rw [hround] at h
          cases h
          refine ⟨0, fun rounds => ?_⟩
          rw [Nat.zero_add, writeRounds_succ, hround]
          rfl
      | again waited' t₁ hround =>
          rw [hround] at h
          obtain ⟨k', hk'⟩ := ih h
          refine ⟨k' + 1, fun rounds => ?_⟩
          rw [Nat.add_right_comm, writeRounds_succ, hround]
          exact hk' rounds
      | go hround =>
          rw [hround] at h
          cases h
          refine ⟨0, fun rounds => ?_⟩
          rw [Nat.zero_add, writeRounds_succ, hround]
          rfl
      | fault f hround =>
          rw [hround] at h
          cases h

/-- The inner waits that a call of `SshWrite` begins, each with the bytes still to be
sent, the clock and the server at its start. -/
inductive WriteWaits (E : Env) (s : Server) (buf : Bytes) : Bytes → ℕ → Server → Prop
  | first {start : ℕ} {t : Server} (hnow : ServerM.onLink (rtNow E) s = .ok (start, t)) :
      WriteWaits E s buf buf start t
  | next {left rest : Bytes} {start start' : ℕ} {t t₁ t₂ t₃ : Server}
      (h : WriteWaits E s buf left start t) (k : ℕ)
      (hwait : waitRounds E k start 0 t = .ok (some true, t₁))
      (hchunk : ServerM.onLink (writeChunk E left) t₁ = .ok (some rest, t₂)) (hrest : rest ≠ [])
      (hnow : ServerM.onLink (rtNow E) t₂ = .ok (start', t₃)) : WriteWaits E s buf rest start' t₃

/-- Every inner wait of the call returns. -/
def WaitsReturn (E : Env) (s : Server) (buf : Bytes) : Prop :=
  ∀ left start t, WriteWaits E s buf left start t →
    ∃ k b t', waitRounds E k start 0 t = .ok (some b, t')

/-- Each chunk makes the rest of the buffer shorter. -/
theorem WriteWaits.returns {s t : Server} {left : Bytes} {start : ℕ}
    (h : WriteWaits E s buf left start t) (hwaits : WaitsReturn E s buf)
    (hs : Sound t.toReceiver) (hleft : left ≠ [])
    (hmax : t.link.conn.chan.chanOpen = true → t.link.conn.chan.remoteMaxPkt ≠ 0) :
    ∃ rounds ret t', writeRounds E rounds start 0 left t = .ok (some ret, t') := by
  induction hlen : left.length using Nat.strong_induction_on generalizing left start t with
  | h n ih =>
      obtain ⟨k, b, t₁, hwait⟩ := hwaits left start t h
      obtain ⟨k', hk'⟩ : ∃ k', ∀ rounds, writeRounds E (k' + (rounds + 1)) start 0 left t =
          if b then afterWait E rounds left t₁ else .ok (some (-1), t₁) :=
        writeRounds_of_wait hwait
      cases b with
      | false => exact ⟨k' + (0 + 1), -1, t₁, hk' 0⟩
      | true =>
          obtain ⟨hpassive, hgo⟩ := (waitRounds_passive k start 0 hs).ok hwait
          obtain ⟨hs₁, hopen₁⟩ := hgo rfl
          obtain ⟨out, t₂, hchunk, hs₂, -, hsome⟩ := (onLink_writeChunk (E := E) hs₁ hleft).returns
          match out with
          | none =>
              refine ⟨k' + (0 + 1), -1, t₂, ?_⟩
              rw [hk', if_pos rfl, afterWait, bind_ok hchunk]
              rfl
          | some [] =>
              refine ⟨k' + (0 + 1), 0, t₂, ?_⟩
              rw [hk', if_pos rfl, afterWait, bind_ok hchunk]
              rfl
          | some (b :: bs) =>
              -- something was sent, so less is left; the induction is on that length
              obtain ⟨d, rfl, hsends⟩ := hsome (b :: bs) rfl
              obtain ⟨p, -, -, hdata, hpacket⟩ := hsends.log
              have hmax₁ : t₁.link.conn.chan.remoteMaxPkt ≠ 0 := by
                have hopen := hopen₁ hpacket.chanOpen
                rw [(hpassive.chan hopen).2.2]
                exact hmax hopen
              have hd : 1 ≤ d.length := hdata ▸ hpacket.nonempty_iff.mpr hmax₁
              obtain ⟨now, t₃, hnow, heq, hs₃⟩ := (show wp (ServerM.onLink (rtNow E)) _
                (fun _ => False) t₂ from rtNow_sound hs₂).returns
              have hmax₃ : t₃.link.conn.chan.remoteMaxPkt ≠ 0 := by
                rw [show t₃.link.conn = t₂.link.conn from congrArg Session.conn heq, hsends.chan.2]
                exact hmax₁
              have hshorter : (b :: bs).length < n := by
                rw [← hlen, List.length_append]
                omega
              obtain ⟨rounds, ret, t', hrun⟩ := ih _ hshorter
                (.next h k hwait hchunk (List.cons_ne_nil b bs) hnow) hs₃ (List.cons_ne_nil b bs)
                (fun _ => hmax₃) rfl
              refine ⟨k' + (rounds + 1), ret, t', ?_⟩
              rw [hk', if_pos rfl, afterWait, bind_ok hchunk]
              exact (bind_ok hnow).trans hrun

/-- **Progress.**  As long as no `CHANNEL_OPEN` was accepted that allows no data in a
packet, each packet of a call carries something of what is left, there are no more packets
than bytes, and the call returns if its waits do. -/
theorem sshWrite_progress {s : Server} (h : Reachable E s)
    (hmax : ∀ window maxPkt, Event.opened window maxPkt ∈ s.link.log → maxPkt ≠ 0) (buf : Bytes) :
    (∀ rounds, wp (sshWrite E rounds buf)
      (fun _ s' => ∃ es, s'.link.log = es ++ s.link.log ∧ Paced buf es) (fun _ => False) s) ∧
    (WaitsReturn E s buf → ∃ rounds ret s', sshWrite E rounds buf s = .ok (some ret, s')) := by
  have hopened : s.link.conn.chan.chanOpen = true → s.link.conn.chan.remoteMaxPkt ≠ 0 := by
    intro hopen
    obtain ⟨window, hmem⟩ := h.openedWithLimit hopen
    exact hmax window _ hmem
  refine ⟨fun rounds => ?_, fun hwaits => ?_⟩
  · exact wp.imp (sshWrite_writes rounds h.sound) fun ret s' hwrites => hwrites.paced hopened
  · by_cases hnil : buf = []
    · exact ⟨0, 0, s, by rw [sshWrite, if_pos hnil]; rfl⟩
    obtain ⟨start, t, hnow, heq, ht⟩ := (show wp (ServerM.onLink (rtNow E)) _
      (fun _ => False) s from rtNow_sound h.sound).returns
    obtain ⟨rounds, ret, t', hrun⟩ := (WriteWaits.first hnow).returns hwaits ht hnil (by
      rw [show t.link.conn = s.link.conn from congrArg Session.conn heq]
      exact hopened)
    refine ⟨rounds, ret, t', ?_⟩
    rw [sshWrite, if_neg hnil]
    exact (bind_ok hnow).trans hrun

/-- Of the packets that a client announces for its channel, those that hold any data. -/
def Event.allowsData : Event → Bool
  | .opened _ maxPkt => maxPkt != 0
  | _ => true

/-- A client that allows 100 bytes in a packet. -/
theorem sshWrite_progress_login : ∃ s, Reachable (plainEnv fun _ _ => true) s ∧
    s.link.conn.chan.chanOpen = true ∧
    (∀ rounds, wp (sshWrite (plainEnv fun _ _ => true) rounds (ascii "hello"))
      (fun _ s' => ∃ es, s'.link.log = es ++ s.link.log ∧ Paced (ascii "hello") es)
      (fun _ => False) s) ∧
    (WaitsReturn (plainEnv fun _ _ => true) s (ascii "hello") → ∃ rounds ret s',
      sshWrite (plainEnv fun _ _ => true) rounds (ascii "hello") s = .ok (some ret, s')) := by
  obtain ⟨s, hreach, hopen, hmax⟩ := exists_reachable (E := plainEnv fun _ _ => true)
    (P := fun s => s.link.conn.chan.chanOpen = true ∧ s.link.log.all Event.allowsData = true)
    [.poll] [.data (clientLogin "root" "secret")] (by decide +kernel)
  rw [List.all_eq_true] at hmax
  have hopened : ∀ window maxPkt, Event.opened window maxPkt ∈ s.link.log → maxPkt ≠ 0 :=
    fun window maxPkt hmem => by simpa [Event.allowsData] using hmax _ hmem
  exact ⟨s, hreach, hopen, sshWrite_progress hreach hopened (ascii "hello")⟩

/-- A client that allows no data in a packet: for one byte three empty packets have gone
out so far, and the call is still running. -/
theorem empty_chunks_sent : ∃ s, Reachable (plainEnv fun _ _ => true) s ∧
    ∃ s', sshWrite (plainEnv fun _ _ => true) 3 (ascii "x") s = .ok (none, s') ∧
    ∃ es, s'.link.log = es ++ s.link.log ∧ chronicle Event.data es = [[], [], []] ∧
      ¬ Paced (ascii "x") es := by
  obtain ⟨s, hreach, hdata, hrun⟩ := exists_reachable (E := plainEnv fun _ _ => true)
    (P := fun s => chronicle Event.data s.link.log = [] ∧
      (sshWrite (plainEnv fun _ _ => true) 3 (ascii "x") s).toOption.any (fun out =>
        decide (out.1 = none ∧ chronicle Event.data out.2.link.log = [[], [], []])) = true)
    [.poll] [.data (clientAuth "root" "secret" ++ sealedFrame (channelOpenRequest 1000 0))]
    (by decide +kernel)
  obtain ⟨⟨ret, s'⟩, hok, hret, hsent⟩ := exists_ok hrun
  obtain rfl : ret = none := hret
  have hwrites : wp (sshWrite (plainEnv fun _ _ => true) 3 (ascii "x")) _ (fun _ => False) s :=
    sshWrite_writes 3 hreach.sound
  obtain ⟨es, hes, -⟩ := wp.ok hwrites hok
  have hall : chronicle Event.data es = [[], [], []] := by
    simp only at hsent
    rw [hes, chronicle_append, hdata, List.nil_append] at hsent
    exact hsent
  refine ⟨s, hreach, s', hok, es, hes, hall, fun hpaced => ?_⟩
  have hcount := hpaced.count
  rw [hall] at hcount
  exact absurd hcount (by decide)

end EfiSshServer
