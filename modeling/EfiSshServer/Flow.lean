import EfiSshServer.Scenario

/-!
# The channel as a flow-control machine

Of everything a session does, flow control sees little: the channel is opened once,
the client sends data and grants window, the server reads, credits and writes, and
at some point it closes.  `FlowStep` lists these moves on `Conn.flow`, the part of
the connection they concern, each with the event it records.  `Step.flow` shows
that every step of a session is a sequence of such moves, so that a property of the
channel is checked against eleven moves and not against every step of the server.
-/

namespace EfiSshServer

open StateProgram RingBuffer

variable {E : Env} {p : Bytes} {r : Int} {s t u : Session}

/-- The messages of a channel that is open: `WINDOW_ADJUST` to `CHANNEL_FAILURE`. -/
def channelMessage (m : UInt8) : Bool := msgChannelWindowAdjust ≤ m && m ≤ msgChannelFailure

/-- The part of a connection that flow control concerns. -/
structure Flow where
  chanOpen : Bool
  closeSent : Bool
  remoteWindow : UInt32
  remoteMaxPkt : UInt32
  inRing : Ring UInt8 sshInRing
  consumed : UInt32

def Conn.flow (c : Conn) : Flow :=
  ⟨c.chan.chanOpen, c.chan.closeSent, c.chan.remoteWindow, c.chan.remoteMaxPkt, c.inRing,
    c.consumed⟩

/-- Up to `max` bytes are taken off the ring. -/
def Flow.pop (f : Flow) (max : ℕ) : Flow :=
  { f with
    inRing := (f.inRing.popUpTo max).2
    consumed := f.consumed + UInt32.ofNat (f.inRing.popUpTo max).1.length }

/-- An event that flow control does not see. -/
def Event.isQuiet : Event → Bool
  | .sent p _ => !channelMessage (msgOf p)
  | .versionSent .. | .sendFailed .. | .kexInitFailed | .dispatch .. | .exchange .. => true
  | .auth .. | .accepted | .closing .. => true
  | .opened .. | .adjusted .. | .received .. | .popped .. | .readEnd .. => false

/-- Nothing happened that flow control sees. -/
structure Quiet (s t : Session) : Prop where
  flow : t.conn.flow = s.conn.flow
  log : ∃ es, t.log = es ++ s.log ∧ ∀ e ∈ es, e.isQuiet = true

/-- The moves of the channel. -/
inductive FlowStep (s t : Session) : Prop
  | quiet (h : Quiet s t)
  | opened (window maxPkt : UInt32) (hclosed : s.conn.chan.chanOpen = false)
      (hflow : t.conn.flow = { s.conn.flow with
        chanOpen := true, closeSent := false, remoteWindow := window, remoteMaxPkt := maxPkt })
      (hlog : t.log = .opened window maxPkt :: s.log)
  | received (d : Bytes) (hopen : s.conn.chan.chanOpen = true)
      (hflow : t.conn.flow = { s.conn.flow with inRing := s.conn.inRing.pushAll d })
      (hlog : t.log = .received d s.conn :: s.log)
  | adjusted (add : UInt32)
      (hflow : t.conn.flow = { s.conn.flow with remoteWindow := s.conn.chan.remoteWindow + add })
      (hlog : t.log = .adjusted add :: s.log)
  | popped (max : ℕ) (hheld : ¬ (halfWindow ≤ (s.conn.flow.pop max).consumed ∧
        canSendNow s.conn = true))
      (hflow : t.conn.flow = s.conn.flow.pop max)
      (hlog : t.log = .popped (s.conn.inRing.popUpTo max).1 s.conn :: s.log)
  | credited (max : ℕ) (hsend : canSendNow s.conn = true)
      (hflow : t.conn.flow = { s.conn.flow.pop max with consumed := 0 })
      (hlog : ∃ c, t.log =
        .sent (windowAdjustPayload s.conn.chan.remoteChan (s.conn.flow.pop max).consumed) c ::
          .popped (s.conn.inRing.popUpTo max).1 s.conn :: s.log)
  | creditLost (max : ℕ) (hsend : canSendNow s.conn = true)
      (hflow : t.conn.flow = s.conn.flow.pop max)
      (hlog : ∃ p c, t.log =
        .sendFailed p c :: .popped (s.conn.inRing.popUpTo max).1 s.conn :: s.log)
  | readEnd (hempty : ringEmpty s.conn = true) (hflow : t.conn.flow = s.conn.flow)
      (hlog : t.log = .readEnd s.conn :: s.log)
  | wrote (d : Bytes) (hsend : canSendNow s.conn = true)
      (hwindow : d.length ≤ s.conn.chan.remoteWindow.toNat)
      (hmax : d.length ≤ min s.conn.chan.remoteMaxPkt.toNat sshDataChunk)
      (hflow : t.conn.flow = { s.conn.flow with
        remoteWindow := s.conn.chan.remoteWindow - UInt32.ofNat d.length })
      (hlog : t.log = .sent (channelDataPayload s.conn.chan.remoteChan d).data s.conn :: s.log)
  | answered {q : Bytes} (ok : Bool) (hq : Handling s q) (hmsg : msgOf q = msgChannelRequest)
      (hwant : requestWantsReply q = true) (hflow : t.conn.flow = s.conn.flow)
      (hlog : t.log = .sent (channelReplyPayload
        (if ok then msgChannelSuccess else msgChannelFailure) s.conn.chan.remoteChan) s.conn ::
          s.log)
  | farewell {p : Bytes} {c : Conn} (hfirst : s.conn.chan.closeSent = false)
      (hmsg : msgOf p = msgChannelRequest ∨ msgOf p = msgChannelEof)
      (hflow : t.conn.flow = s.conn.flow) (hlog : t.log = .sent p c :: s.log)
  | closed (hopen : s.conn.chan.chanOpen = true) (hfirst : s.conn.chan.closeSent = false)
      (hflow : t.conn.flow = { s.conn.flow with closeSent := true })
      (hlog : ∃ p, msgOf p = msgChannelClose ∧
        ((∃ c, t.log = .sent p c :: s.log) ∨ ∃ c, t.log = .sendFailed p c :: s.log))

/-- Any number of moves. -/
def FlowSteps : Session → Session → Prop := Relation.ReflTransGen FlowStep

theorem FlowStep.steps (h : FlowStep s t) : FlowSteps s t := Relation.ReflTransGen.single h

theorem FlowSteps.trans (h : FlowSteps s t) (h' : FlowSteps t u) : FlowSteps s u :=
  Relation.ReflTransGen.trans h h'

theorem Quiet.steps (h : Quiet s t) : FlowSteps s t := FlowStep.steps (.quiet h)

/-! ## Quiet steps -/

theorem Quiet.of_eq (hflow : t.conn.flow = s.conn.flow) (hlog : t.log = s.log) : Quiet s t :=
  ⟨hflow, [], hlog, by simp⟩

theorem Quiet.cons {e : Event} (hflow : t.conn.flow = s.conn.flow) (hlog : t.log = e :: s.log)
    (he : e.isQuiet = true) : Quiet s t :=
  ⟨hflow, [e], hlog, by simpa using he⟩

theorem Quiet.trans (h : Quiet s t) (h' : Quiet t u) : Quiet s u := by
  obtain ⟨es, hes, hquiet⟩ := h.log
  obtain ⟨es', hes', hquiet'⟩ := h'.log
  refine ⟨h'.flow.trans h.flow, es' ++ es, ?_, fun e he => ?_⟩
  · rw [hes', hes, List.append_assoc]
  · exact (List.mem_append.mp he).elim (hquiet' e) (hquiet e)

/-- What is read off the other events stays the same. -/
theorem Quiet.log_eq {α : Sort*} (h : Quiet s t) {f : List Event → α}
    (hf : ∀ e log, e.isQuiet = true → f (e :: log) = f log) : f t.log = f s.log := by
  obtain ⟨es, hes, hquiet⟩ := h.log
  rw [hes]
  clear hes
  induction es with
  | nil => rfl
  | cons e es ih =>
      rw [List.cons_append, hf e _ (hquiet e List.mem_cons_self)]
      exact ih fun e he => hquiet e (List.mem_cons_of_mem _ he)

theorem SendFrame.flow {c c' : Conn} (h : SendFrame c c') : c'.flow = c.flow := by
  unfold Conn.flow
  rw [h.chan, h.inRing, h.consumed]

/-- Sends of messages that are not messages of the channel. -/
theorem Sends.quiet {P : UInt8 → Prop} (h : Sends P s t)
    (hP : ∀ m, P m → channelMessage m = false) : Quiet s t := by
  obtain ⟨es, hes, hsend⟩ := h.log
  refine ⟨h.frame.flow, es, hes, fun e he => ?_⟩
  obtain ⟨hside, hmsg⟩ := hsend e he
  cases e with
  | sent p c => simp [Event.isQuiet, hP _ (hmsg p c rfl).1]
  | sendFailed | kexInitFailed | closing => rfl
  | _ => cases hside

theorem Farewell.quiet (h : Farewell s t) : Quiet s t :=
  h.sends.quiet (by rintro _ rfl; decide)

theorem Emits.quiet (h : Emits p s r t) (hmsg : channelMessage (msgOf p) = false) : Quiet s t :=
  h.sends.quiet fun _ hm => hm ▸ hmsg

/-- A send that failed sends nothing. -/
theorem Emits.quiet_of_ne_zero (h : Emits p s r t) (hr : r ≠ 0) : Quiet s t := by
  rcases h.log_eq with ⟨hzero, -⟩ | ⟨-, hlog⟩
  · exact absurd hzero hr
  · exact .cons h.frame.flow hlog rfl

/-- A send that succeeded, or nothing. -/
theorem Emits.flow_cases (h : Emits p s r t) :
    (t.conn.flow = s.conn.flow ∧ t.log = .sent p s.conn :: s.log) ∨ Quiet s t := by
  rcases h.log_eq with ⟨-, hlog⟩ | ⟨hr, -⟩
  · exact .inl ⟨h.frame.flow, hlog⟩
  · exact .inr (h.quiet_of_ne_zero hr)

/-! ## Every step of a session -/

theorem Replies.flow {q : Bytes} (hq : Handling s q) (hp : Replies s.conn q p)
    (h : Emits p s r t) : FlowSteps s t := by
  cases hp with
  | channelReply hmsg hwant _ _ ok =>
      rcases h.flow_cases with ⟨hflow, hlog⟩ | hquiet
      · exact FlowStep.steps (.answered ok hq hmsg hwant hflow hlog)
      · exact hquiet.steps
  | serviceAccept | authFailure | requestFailure | openFailure | unimplemented =>
      exact (h.quiet (by simp; decide)).steps

/-- A message of the close handshake in front of the `CLOSE`. -/
theorem Emits.farewell (h : Emits p s r t) (hfirst : s.conn.chan.closeSent = false)
    (hmsg : msgOf p = msgChannelRequest ∨ msgOf p = msgChannelEof) : FlowSteps s t := by
  rcases h.flow_cases with ⟨hflow, hlog⟩ | hquiet
  · exact FlowStep.steps (.farewell hfirst hmsg hflow hlog)
  · exact hquiet.steps

/-- The `CLOSE` is on the wire or lost. -/
theorem Emits.closed_log {remoteChan : UInt32}
    (h : Emits (channelReplyPayload msgChannelClose remoteChan) s r t) :
    ∃ p, msgOf p = msgChannelClose ∧
      ((∃ c, t.log = .sent p c :: s.log) ∨ ∃ c, t.log = .sendFailed p c :: s.log) :=
  ⟨_, msgOf_channelReplyPayload _ _, h.log_eq.imp (fun h => ⟨_, h.2⟩) fun h => ⟨_, h.2⟩⟩

theorem CloseHandshake.flow {exitStatus : UInt32} (hopen : s.conn.chan.chanOpen = true)
    (hfirst : s.conn.chan.closeSent = false) (h : CloseHandshake exitStatus s t) :
    FlowSteps s t := by
  obtain ⟨hexit, heof, hclose⟩ := h
  rename_i r₁ r₂ r₃ t₁ t₂ t₃
  have hstart : FlowSteps s ⟨s.conn, .closing s.conn :: s.log⟩ :=
    Quiet.steps (.cons rfl rfl rfl)
  have hchan₁ : t₁.conn.chan = s.conn.chan := hexit.frame.chan
  have hchan₂ : t₂.conn.chan = s.conn.chan := heof.frame.chan.trans hchan₁
  refine ((hstart.trans (hexit.farewell hfirst (.inl (by simp)))).trans
    (heof.farewell (by rw [hchan₁]; exact hfirst) (.inr (by simp)))).trans ?_
  refine FlowStep.steps (.closed (by rw [hchan₂]; exact hopen) (by rw [hchan₂]; exact hfirst) ?_
    hclose.closed_log)
  have hflow := hclose.frame.flow
  unfold Conn.flow at hflow ⊢
  simp only [Flow.mk.injEq] at hflow ⊢
  exact ⟨hflow.1, trivial, hflow.2.2⟩

/-- A read and what becomes of its credit are one move. -/
theorem Credits.flow (max : ℕ) (h : Credits (s.popped max) t) : FlowSteps s t := by
  cases h with
  | held hheld => exact FlowStep.steps (.popped max hheld rfl rfl)
  | @sent u hsend hemit =>
      have hlog := (hemit.log_eq.resolve_right fun h => absurd rfl h.1).2
      have hflow : Conn.flow { u.conn with consumed := 0 } =
          { s.conn.flow.pop max with consumed := 0 } := by
        unfold Conn.flow
        rw [hemit.frame.chan, hemit.frame.inRing]
        rfl
      exact FlowStep.steps (.credited max hsend hflow ⟨_, hlog⟩)
  | lost hsend hemit hr =>
      have hlog := (hemit.log_eq.resolve_left fun h => hr h.1).2
      exact FlowStep.steps (.creditLost max hsend hemit.frame.flow ⟨_, _, hlog⟩)

/-- A key exchange leaves the channel alone. -/
theorem Quiet.withKx (h : Quiet s t) (kx : Exchange) : Quiet s (t.withKx kx) := ⟨h.flow, h.log⟩

theorem Step.flow (h : Step E s t) : FlowSteps s t := by
  have hkx : ∀ u kx, Quiet s u → Quiet s (u.withKx kx) := fun _ kx hu => hu.withKx kx
  have harrived : ∀ p packet mac, Quiet s (s.dispatched p packet mac) :=
    fun _ _ _ => .cons rfl rfl rfl
  cases h with
  | dispatch p packet mac => exact (harrived p packet mac).steps
  | skipGuess => exact (hkx _ _ (harrived _ _ _)).steps
  | versionSent => exact Quiet.steps (.cons rfl rfl rfl)
  | disconnect hend => exact hend.quiet.steps
  | reply hq hp hemit => exact hp.flow hq hemit
  | firstKexInit _ _ _ hdone =>
      exact (hdone.keeps hkx (fun _ _ h hu => hu.trans (h.quiet (by rintro _ rfl; decide)))
        (.of_eq rfl rfl)).steps
  | firstKexInitFailed _ _ hfail =>
      exact (hfail.keeps hkx (fun _ _ h hu => hu.trans (h.quiet (by rintro _ rfl; decide)))
        (.of_eq rfl rfl)).steps
  | kexInit _ _ hend =>
      exact (hend.keeps hkx (fun _ _ h hu => hu.trans (h.quiet (by decide +kernel)))
        (fun _ _ hu => ⟨hu.flow, hu.log⟩) (harrived _ _ _)).steps
  | exchange _ _ hend =>
      exact (hend.keeps (I := Quiet s) (fun _ _ h hu => hu.trans (h.quiet (by decide +kernel)))
        (fun _ _ _ hu => ⟨hu.flow, hu.log⟩) (.cons rfl rfl rfl)).steps
  | newKeys _ _ hend =>
      exact (hend.keeps (fun _ _ h hu => hu.trans (h.quiet (by rintro _ rfl; decide)))
        (fun _ hu => ⟨hu.flow, hu.log⟩) (harrived _ _ _)).steps
  | authAccepted _ _ _ _ hemit | authRejected _ _ _ _ _ hemit =>
      have hquiet := hemit.quiet (by simp; decide)
      refine Quiet.steps (Quiet.trans ?_ hquiet)
      exact .cons rfl rfl rfl
  | authExhausted _ _ hend =>
      refine Quiet.steps (Quiet.trans ?_ hend.quiet)
      exact .cons rfl rfl rfl
  | openChannel sender window maxPkt _ _ _ _ hclosed hemit =>
      refine FlowSteps.trans ?_ (hemit.quiet (by simp; decide)).steps
      exact FlowStep.steps (.opened window maxPkt hclosed rfl rfl)
  | data d hopen => exact FlowStep.steps (.received d hopen rfl rfl)
  | adjust add => exact FlowStep.steps (.adjusted add rfl rfl)
  | closeReply _ _ hopen hfirst hemit =>
      exact FlowStep.steps (.closed hopen hfirst hemit.frame.flow hemit.closed_log)
  | accepted => exact Quiet.steps (.cons rfl rfl rfl)
  | readEnd hempty => exact FlowStep.steps (.readEnd hempty rfl rfl)
  | read max _ hcredit => exact hcredit.flow max
  | writeLost _ _ hemit hr => exact (hemit.quiet_of_ne_zero hr).steps
  | writeData d hsend _ hwindow hmax hemit =>
      refine FlowStep.steps (.wrote d hsend hwindow hmax ?_ ?_)
      · unfold Conn.flow
        rw [hemit.frame.chan, hemit.frame.inRing, hemit.frame.consumed]
      · exact hemit.log_eq.elim And.right fun h => absurd rfl h.1
  | startClose exitStatus _ hopen hfirst hclose => exact hclose.flow hopen hfirst
  | _ => exact Quiet.steps (.of_eq rfl rfl)

/-- Every move adds to the log. -/
theorem FlowStep.grown (h : FlowStep s t) : s.log <:+ t.log := by
  cases h with
  | quiet h =>
      obtain ⟨es, hes, -⟩ := h.log
      exact ⟨es, hes.symm⟩
  | credited _ _ _ hlog =>
      obtain ⟨c, hlog⟩ := hlog
      exact hlog ▸ (List.suffix_cons _ _).trans (List.suffix_cons _ _)
  | creditLost _ _ _ hlog =>
      obtain ⟨p, c, hlog⟩ := hlog
      exact hlog ▸ (List.suffix_cons _ _).trans (List.suffix_cons _ _)
  | closed _ _ _ hlog =>
      obtain ⟨p, -, ⟨c, hlog⟩ | ⟨c, hlog⟩⟩ := hlog <;> exact hlog ▸ List.suffix_cons _ _
  | opened _ _ _ _ hlog | received _ _ _ hlog | adjusted _ _ hlog | popped _ _ _ hlog
  | readEnd _ _ hlog | wrote _ _ _ _ _ hlog | answered _ _ _ _ _ hlog
  | farewell _ _ _ hlog => exact hlog ▸ List.suffix_cons _ _

theorem Step.grown (h : Step E s t) : s.log <:+ t.log :=
  invariant_of_step (I := fun u => s.log <:+ u.log) (fun _ _ hmove hu => hu.trans hmove.grown)
    h.flow (List.suffix_refl _)

theorem Steps.grown (h : Steps E s t) : s.log <:+ t.log :=
  h.invariant (I := fun u => s.log <:+ u.log) (fun _ _ hstep hu => hu.trans (Step.grown hstep))
    (List.suffix_refl _)

/-- Assertions about the channel that hold of a new connection and that every move
keeps hold of every state a connection reaches. -/
theorem Reachable.flow_invariant {s : Server} {I : Session → Prop} (h : Reachable E s)
    (hnew : ∀ hostSeed hostPub, I ⟨newConn hostSeed hostPub, []⟩)
    (hstep : ∀ s t, FlowStep s t → I s → I t) : I s.link.toSession :=
  h.invariant hnew fun _ _ hmove hI => invariant_of_step hstep hmove.flow hI

end EfiSshServer
