import EfiSshServer.Receiver

/-!
# Every run is a sequence of steps

The programs of the API are sequences of steps.  `ServerInvariant` is the rule for
runs: an assertion about the server that the steps of the connection and
`ProcessInput` keep is kept by every call.  The only fault a run can end in is the
overflow of `clientVersion`.
-/

namespace EfiSshServer

open StateProgram

variable {A : Prop} {E : Env} {l : Link} {s : Server} {fault : Fault → Prop}

/-! ## The programs of the API -/

/-- The clock leaves the session alone. -/
theorem rtNow_same : wp (rtNow E) (fun _ l' => l'.toSession = l.toSession) fault l := by
  simp only [rtNow, LinkM.wp_ask]

theorem rtTimedOut_steps (start spins usPerSpin limitMs : ℕ) :
    wp (rtTimedOut E start spins usPerSpin limitMs)
      (fun _ l' => StepsOf A E l.toSession l'.toSession) fault l := by
  have hrefl : StepsOf A E l.toSession l.toSession := .refl _
  simp only [rtTimedOut, wallClockPassed, rtNow, wp_bind, LinkM.wp_ask, wp_ite, wp_pure, hrefl,
    implies_true, and_self]

/-- What a call of the API does beside `ProcessInput`: steps that leave alone what only
received bytes change. -/
structure ApiSteps (E : Env) (s t : Session) : Prop where
  steps : Steps E s t
  state : t.conn.state = s.conn.state ∨ t.conn.state = .closed
  clientVersion : t.conn.clientVersion = s.conn.clientVersion
  inDir : t.conn.inDir = s.conn.inDir

theorem ApiSteps.refl (s : Session) : ApiSteps E s s := ⟨.refl s, .inl rfl, rfl, rfl⟩

theorem StepOf.api {s t : Session} (h : Step E s t)
    (hstate : t.conn.state = s.conn.state ∨ t.conn.state = .closed)
    (hversion : t.conn.clientVersion = s.conn.clientVersion)
    (hdir : t.conn.inDir = s.conn.inDir) : ApiSteps E s t :=
  ⟨h.steps, hstate, hversion, hdir⟩

/-- A step that only sends. -/
theorem StepOf.apiSend {s t : Session} (h : Step E s t) (hframe : SendFrame s.conn t.conn) :
    ApiSteps E s t :=
  h.api hframe.state hframe.clientVersion hframe.inDir

theorem rtNow_api :
    wp (rtNow E) (fun _ l' => ApiSteps E l.toSession l'.toSession) fault l :=
  wp.imp rtNow_same fun _ _ h => h ▸ .refl _

theorem rtTimedOut_api (start spins usPerSpin limitMs : ℕ) :
    wp (rtTimedOut E start spins usPerSpin limitMs)
      (fun _ l' => ApiSteps E l.toSession l'.toSession) fault l := by
  have hrefl : ApiSteps E l.toSession l.toSession := .refl _
  simp only [rtTimedOut, wallClockPassed, rtNow, wp_bind, LinkM.wp_ask, wp_ite, wp_pure, hrefl,
    implies_true, and_self]

theorem sendVersion_api :
    wp (sendVersion E) (fun _ l' => ApiSteps E l.toSession l'.toSession) fault l := by
  simp only [sendVersion, wp_bind, LinkM.wp_conn, LinkM.wp_ask, wp_ite, LinkM.wp_update, wp_pure]
  exact ⟨fun _ => .refl _, fun _ => ⟨fun _ => StepOf.close.api (.inr rfl) rfl rfl,
    fun _ => StepOf.versionSent.api (.inl rfl) rfl rfl⟩⟩

theorem disconnect_api (reason : UInt32) (msg : String) :
    wp (disconnect E reason msg) (fun _ l' => ApiSteps E l.toSession l'.toSession) fault l :=
  wp.imp (disconnect_farewell _ _) fun _ _ h => (StepOf.disconnect h).apiSend h.frame

theorem returnCredit_credits :
    wp (returnCredit E) (fun _ l' => Credits l.toSession l'.toSession) fault l := by
  simp only [returnCredit, wp_bind, LinkM.wp_conn, wp_ite, LinkM.wp_update, wp_pure]
  refine ⟨fun hsend => ?_, fun hheld => .held hheld⟩
  refine wp.imp (sendPacket_emits E _ l fault) fun ret l' h => ⟨fun hret => ?_, fun hret => ?_⟩
  · rw [hret] at h
    exact .sent hsend.2 h
  · exact .lost hsend.2 h hret

theorem takeInput_api (max : ℕ) :
    wp (takeInput E max) (fun _ l' => ApiSteps E l.toSession l'.toSession) fault l := by
  simp only [takeInput, wp_bind, LinkM.wp_conn, LinkM.wp_record, LinkM.wp_update, wp_ite, wp_pure]
  refine ⟨fun hempty => ⟨fun _ => (StepOf.readEnd hempty).api (.inl rfl) rfl rfl,
    fun _ => .refl _⟩, fun hne => ?_⟩
  refine wp.imp returnCredit_credits fun _ l' h => ?_
  have hread := StepOf.read (A := True) (E := E) max (by simpa using hne) h
  obtain ⟨u, consumed, hsends, heq⟩ := h.sends
  apply hread.api
  · rw [heq]
    exact hsends.frame.state
  · rw [heq]
    exact hsends.frame.clientVersion
  · rw [heq]
    exact hsends.frame.inDir

theorem chunkLen_le (c : Conn) (len : ℕ) :
    chunkLen c len ≤ c.chan.remoteWindow.toNat ∧
      chunkLen c len ≤ min c.chan.remoteMaxPkt.toNat sshDataChunk ∧ chunkLen c len ≤ len := by
  unfold chunkLen
  omega

theorem writeChunk_api (buf : Bytes) :
    wp (writeChunk E buf) (fun _ l' => ApiSteps E l.toSession l'.toSession) fault l := by
  simp only [writeChunk, updateChan, wp_bind, LinkM.wp_conn, LinkM.wp_update, wp_ite, wp_pure]
  refine ⟨fun _ => .refl _, fun hgo => ⟨fun _ => .refl _, fun _ => ?_⟩⟩
  simp only [not_or, Bool.not_eq_false, Bool.not_eq_true] at hgo
  obtain ⟨hsend, hclose, -⟩ := hgo
  obtain ⟨hwindow, hmax, hlen⟩ := chunkLen_le l.conn buf.length
  refine wp.imp (sendPacket_emits E _ l fault) fun ret l' h => ⟨fun hret => ?_, fun hret => ?_⟩
  · exact (StepOf.writeLost _ hsend h hret).apiSend h.frame
  · rw [not_not.mp hret] at h
    have hchunk : (buf.take (chunkLen l.conn buf.length)).length = chunkLen l.conn buf.length :=
      List.length_take_of_le hlen
    have hstep := StepOf.writeData (A := True) (E := E) _ hsend hclose
      (by rw [hchunk]; exact hwindow) (by rw [hchunk]; exact hmax) h
    rw [hchunk] at hstep
    exact hstep.api h.frame.state h.frame.clientVersion h.frame.inDir

theorem writeChunk_steps (buf : Bytes) :
    wp (writeChunk E buf) (fun _ l' => Steps E l.toSession l'.toSession) fault l :=
  wp.imp (writeChunk_api buf) fun _ _ h => h.steps

theorem startClose_api (exitStatus : UInt32) (hstate : l.conn.state = .conn)
    (hopen : l.conn.chan.chanOpen = true) (hfirst : l.conn.chan.closeSent = false) :
    wp (startClose E exitStatus) (fun _ l' => ApiSteps E l.toSession l'.toSession) fault l := by
  simp only [startClose, sendChannelReply, updateChan, wp_bind, LinkM.wp_conn, LinkM.wp_record,
    LinkM.wp_update]
  refine wp.imp (sendPacket_emits E _ _ fault) fun _ l₁ hexit => ?_
  have hchan₁ : l₁.conn.chan = l.conn.chan := hexit.frame.chan
  rw [hchan₁]
  refine wp.imp (sendPacket_emits E _ l₁ fault) fun _ l₂ heof => ?_
  have hchan₂ : l₂.conn.chan = l.conn.chan := heof.frame.chan.trans hchan₁
  rw [hchan₂]
  refine wp.imp (sendPacket_emits E _ l₂ fault) fun _ l₃ hclose => ?_
  have hframe : SendFrame l.conn l₃.conn := hexit.frame.trans (heof.frame.trans hclose.frame)
  exact (StepOf.startClose exitStatus hstate hopen hfirst ⟨hexit, heof, hclose⟩).api
    hframe.state hframe.clientVersion hframe.inDir

theorem endSession_api :
    wp (endSession E) (fun _ l' => ApiSteps E l.toSession l'.toSession) fault l := by
  simp only [endSession, wp_bind, LinkM.wp_conn, wp_ite, wp_pure]
  exact ⟨fun _ => .refl _, fun _ => disconnect_api _ _⟩

/-! ## Invariants of the server -/

/-- The programs of the link that the API runs beside `ProcessInput` and `takeInput`, on the
connection `c`. -/
inductive ApiPart (E : Env) (c : Conn) : {α : Type} → LinkM α → Prop
  | clock : ApiPart E c (rtNow E)
  | timeout (start spins usPerSpin limitMs : ℕ) :
      ApiPart E c (rtTimedOut E start spins usPerSpin limitMs)
  | version : ApiPart E c (sendVersion E)
  | accepted (hready : c.chan.shellReady = true) : ApiPart E c (LinkM.record fun _ => .accepted)
  | disconnect (reason : UInt32) (msg : String) : ApiPart E c (disconnect E reason msg)
  | write (buf : Bytes) : ApiPart E c (writeChunk E buf)
  | startClose (exitStatus : UInt32) (hstate : c.state = .conn) (hopen : c.chan.chanOpen = true)
      (hfirst : c.chan.closeSent = false) : ApiPart E c (startClose E exitStatus)
  | endSession : ApiPart E c (endSession E)

/-- An assertion that `ProcessInput` and the parts of the API keep, save those of
`SshRead`. -/
structure UnreadInvariant (E : Env) (fault : Fault → Prop) (I : Server → Prop) : Prop where
  input : ∀ {s}, I s → wp (processInput E) (fun _ s' => I s') fault s
  part : ∀ {s} {α : Type} {m : LinkM α}, ApiPart E s.link.conn m → I s →
    wp (ServerM.onLink m) (fun _ s' => I s') fault s

/-- An assertion that `ProcessInput` and the other parts of the API keep. -/
structure PartInvariant (E : Env) (fault : Fault → Prop) (I : Server → Prop) : Prop
    extends UnreadInvariant E fault I where
  take : ∀ {s} (max : ℕ), I s → wp (ServerM.onLink (takeInput E max)) (fun _ s' => I s') fault s

/-- The calls that read no input. -/
def ApiCall.isUnread : ApiCall → Bool
  | .read _ => false
  | _ => true

namespace UnreadInvariant

variable {I : Server → Prop} (hI : UnreadInvariant E fault I)

include hI

theorem acceptRounds (rounds start idle : ℕ) (hs : I s) :
    wp (acceptRounds E rounds start idle) (fun _ s' => I s') fault s := by
  induction rounds generalizing s start idle with
  | zero => exact hs
  | succ rounds ih =>
      simp only [EfiSshServer.acceptRounds, wp_bind, ServerM.wp_conn]
      refine wp.ite (fun _ => hs) fun _ => ?_
      simp only [wp_bind]
      refine wp.imp (hI.input hs) fun out s₁ h₁ => ?_
      refine wp.ite (fun _ => h₁) fun _ => ?_
      simp only [wp_bind, ServerM.wp_conn]
      refine wp.ite (fun hready => ?_) fun _ => ?_
      · simp only [wp_bind]
        exact wp.imp (hI.part (.accepted hready) h₁) fun _ _ h₂ => h₂
      refine wp.ite (fun _ => ?_) fun _ => ?_
      · simp only [wp_bind]
        exact wp.imp (hI.part .clock h₁) fun now s₂ h₂ => ih _ _ h₂
      · simp only [wp_bind]
        refine wp.imp (hI.part (.timeout _ _ _ _) h₁) fun late s₂ h₂ => ?_
        refine wp.ite (fun _ => ?_) fun _ => ih _ _ h₂
        simp only [wp_bind]
        exact wp.imp (hI.part (.disconnect _ _) h₂) fun _ s₃ h₃ => h₃

theorem sshAccept (rounds : ℕ) (hs : I s) :
    wp (sshAccept E rounds) (fun _ s' => I s') fault s := by
  simp only [EfiSshServer.sshAccept, wp_bind]
  refine wp.imp (hI.part .clock hs) fun now s₁ h₁ => ?_
  refine wp.imp (hI.part .version h₁) fun ret s₂ h₂ => ?_
  exact wp.ite (fun _ => h₂) fun _ => hI.acceptRounds _ _ _ h₂

theorem writeRounds (rounds start waited : ℕ) (buf : Bytes) (hs : I s) :
    wp (writeRounds E rounds start waited buf) (fun _ s' => I s') fault s := by
  induction rounds generalizing s start waited buf with
  | zero => exact hs
  | succ rounds ih =>
      simp only [EfiSshServer.writeRounds, wp_bind, ServerM.wp_conn]
      refine wp.ite (fun _ => ?_) fun _ => ?_
      · simp only [wp_bind]
        refine wp.imp (hI.input hs) fun out s₁ h₁ => ?_
        refine wp.ite (fun _ => h₁) fun _ => ?_
        refine wp.ite (fun _ => ih _ _ _ h₁) fun _ => ?_
        simp only [wp_bind]
        refine wp.imp (hI.part (.timeout _ _ _ _) h₁) fun late s₂ h₂ => ?_
        exact wp.ite (fun _ => h₂) fun _ => ih _ _ _ h₂
      · simp only [wp_bind]
        refine wp.imp (hI.part (.write _) hs) fun left s₁ h₁ => ?_
        split
        · exact h₁
        · exact h₁
        · simp only [wp_bind]
          exact wp.imp (hI.part .clock h₁) fun now s₂ h₂ => ih _ _ _ h₂

theorem sshWrite (rounds : ℕ) (buf : Bytes) (hs : I s) :
    wp (sshWrite E rounds buf) (fun _ s' => I s') fault s := by
  simp only [EfiSshServer.sshWrite]
  refine wp.ite (fun _ => hs) fun _ => ?_
  simp only [wp_bind]
  exact wp.imp (hI.part .clock hs) fun now s₁ h₁ => hI.writeRounds _ _ _ _ h₁

theorem closeRounds (rounds start waited : ℕ) (hs : I s) :
    wp (closeRounds E rounds start waited) (fun _ s' => I s') fault s := by
  induction rounds generalizing s start waited with
  | zero => exact hs
  | succ rounds ih =>
      simp only [EfiSshServer.closeRounds, wp_bind, ServerM.wp_conn]
      refine wp.ite (fun _ => hs) fun _ => ?_
      simp only [wp_bind]
      refine wp.imp (hI.input hs) fun out s₁ h₁ => ?_
      refine wp.ite (fun _ => h₁) fun _ => ?_
      refine wp.ite (fun _ => ih _ _ h₁) fun _ => ?_
      simp only [wp_bind]
      refine wp.imp (hI.part (.timeout _ _ _ _) h₁) fun late s₂ h₂ => ?_
      exact wp.ite (fun _ => h₂) fun _ => ih _ _ h₂

theorem sshClose (rounds : ℕ) (exitStatus : UInt32) (hs : I s) :
    wp (sshClose E rounds exitStatus) (fun _ s' => I s') fault s := by
  simp only [EfiSshServer.sshClose, wp_bind, ServerM.wp_conn]
  refine wp.ite (fun h => ?_) fun _ => ?_
  · obtain ⟨hstate, hopen, hfirst⟩ := h
    simp only [wp_bind]
    refine wp.imp (hI.part (.startClose _ hstate hopen hfirst) hs) fun _ s₁ h₁ => ?_
    refine wp.imp (hI.part .clock h₁) fun now s₂ h₂ => ?_
    refine wp.imp (hI.closeRounds _ _ _ h₂) fun finished s₃ h₃ => ?_
    refine wp.ite (fun _ => h₃) fun _ => ?_
    simp only [wp_bind]
    exact wp.imp (hI.part .endSession h₃) fun _ _ h₄ => h₄
  · simp only [wp_bind]
    exact wp.imp (hI.part .endSession hs) fun _ _ h => h

/-- Every call but `SshRead` keeps it. -/
theorem runCall {call : ApiCall} (hcall : call.isUnread = true) (hs : I s) :
    wp (runCall E call) (fun _ s' => I s') fault s := by
  cases call with
  | poll =>
      simp only [EfiSshServer.runCall, sshPoll, wp_bind]
      exact wp.imp (hI.input hs) fun _ _ h => h
  | accept rounds =>
      simp only [EfiSshServer.runCall, wp_bind]
      exact wp.imp (hI.sshAccept rounds hs) fun _ _ h => h
  | read => cases hcall
  | write rounds buf =>
      simp only [EfiSshServer.runCall, wp_bind]
      exact wp.imp (hI.sshWrite rounds buf hs) fun _ _ h => h
  | close rounds exitStatus =>
      simp only [EfiSshServer.runCall, wp_bind]
      exact wp.imp (hI.sshClose rounds exitStatus hs) fun _ _ h => h

end UnreadInvariant

namespace PartInvariant

variable {I : Server → Prop} (hI : PartInvariant E fault I)

include hI

theorem sshRead (max : ℕ) (hs : I s) : wp (sshRead E max) (fun _ s' => I s') fault s := by
  simp only [EfiSshServer.sshRead, wp_bind]
  exact wp.imp (hI.input hs) fun out s₁ h₁ => hI.take max h₁

/-- Every call keeps it. -/
theorem runCall (call : ApiCall) (hs : I s) : wp (runCall E call) (fun _ s' => I s') fault s := by
  cases call with
  | read max =>
      simp only [EfiSshServer.runCall, wp_bind]
      exact wp.imp (hI.sshRead max hs) fun _ _ h => h
  | poll | accept | write | close => exact hI.toUnreadInvariant.runCall rfl hs

/-- It holds along every run. -/
theorem runs {s₀ : Server} (h : Runs E s₀ s) (hs : I s₀) : I s := by
  induction h with
  | none => exact hs
  | call _ call hrun ih => exact (hI.runCall call ih).ok hrun

end PartInvariant

/-- An assertion that the steps of the API and `ProcessInput` keep. -/
structure CallInvariant (E : Env) (fault : Fault → Prop) (I : Server → Prop) : Prop where
  steps : ∀ {s l'}, I s → ApiSteps E s.link.toSession l'.toSession → I { s with link := l' }
  input : ∀ {s}, I s → wp (processInput E) (fun _ s' => I s') fault s

/-- The parts of the API take steps. -/
theorem ApiPart.api {α : Type} {m : LinkM α} (h : ApiPart E l.conn m) :
    wp m (fun _ l' => ApiSteps E l.toSession l'.toSession) fault l := by
  cases h with
  | clock => exact rtNow_api
  | timeout => exact rtTimedOut_api _ _ _ _
  | version => exact sendVersion_api
  | accepted hready => exact (StepOf.accepted (A := True) (E := E) hready).api (.inl rfl) rfl rfl
  | disconnect => exact disconnect_api _ _
  | write => exact writeChunk_api _
  | startClose _ hstate hopen hfirst => exact startClose_api _ hstate hopen hfirst
  | endSession => exact endSession_api

namespace CallInvariant

variable {I : Server → Prop} (hI : CallInvariant E fault I)

include hI

theorem partInvariant : PartInvariant E fault I where
  input := hI.input
  part {s} _ _ h hs := by
    rw [ServerM.wp_onLink]
    exact wp.imp h.api fun _ _ hsteps => hI.steps hs hsteps
  take max hs := by
    rw [ServerM.wp_onLink]
    exact wp.imp (takeInput_api max) fun _ _ hsteps => hI.steps hs hsteps

/-- Every call keeps it. -/
theorem runCall (call : ApiCall) (hs : I s) : wp (runCall E call) (fun _ s' => I s') fault s :=
  hI.partInvariant.runCall call hs

/-- It holds along every run. -/
theorem runs {s₀ : Server} (h : Runs E s₀ s) (hs : I s₀) : I s := hI.partInvariant.runs h hs

end CallInvariant

/-- An assertion that steps of the connection and `ProcessInput` keep. -/
structure ServerInvariant (E : Env) (fault : Fault → Prop) (I : Server → Prop) : Prop where
  steps : ∀ {s l'}, I s → Steps E s.link.toSession l'.toSession → I { s with link := l' }
  input : ∀ {s}, I s → wp (processInput E) (fun _ s' => I s') fault s

namespace ServerInvariant

variable {I : Server → Prop} (hI : ServerInvariant E fault I)

include hI

theorem callInvariant : CallInvariant E fault I := ⟨fun hs h => hI.steps hs h.steps, hI.input⟩

/-- Every call keeps it. -/
theorem runCall (call : ApiCall) (hs : I s) : wp (runCall E call) (fun _ s' => I s') fault s :=
  hI.callInvariant.runCall call hs

/-- It holds along every run. -/
theorem runs {s₀ : Server} (h : Runs E s₀ s) (hs : I s₀) : I s := hI.callInvariant.runs h hs

end ServerInvariant

/-- The server moves by steps of the connection, and its receiver stays sound. -/
theorem serverInvariant_moves {s₀ : Server} (hs : Sound s₀.toReceiver) :
    ServerInvariant E (· = .versionOverflow) fun s => Moves True E s₀.toReceiver s.toReceiver where
  steps h hsteps := ⟨h.1.trans hsteps, fun hlen =>
    ⟨hsteps.state_ne_version (h.2 hlen).1, (h.2 hlen).2⟩⟩
  input h := wp.imp (processInput_moves (h.sound hs) fun _ => rfl) fun _ _ h' => h.trans h'

/-! ## Runs -/

/-- What `SshNew` returns. -/
theorem sshNew_eq {connSize : ℕ} {hostSeed : Bytes} {calls : List Call} {input : List ReadResult}
    (h : sshNew E connSize hostSeed calls input = some s) :
    s.link.toSession = ⟨newConn hostSeed (E.hostPublic hostSeed).toList, []⟩ ∧
      s.rx = ⟨[], false, 0⟩ ∧ s.input = input := by
  simp only [sshNew, Option.bind_eq_bind, Option.bind_eq_some_iff] at h
  obtain ⟨⟨_, calls'⟩, -, h⟩ := h
  cases h
  exact ⟨rfl, rfl, rfl⟩

theorem Runs.moves {s₀ : Server} (h : Runs E s₀ s) (hs : Sound s₀.toReceiver) :
    Moves True E s₀.toReceiver s.toReceiver :=
  (serverInvariant_moves hs).runs h (.refl hs.header)

theorem sshNew_sound {connSize : ℕ} {hostSeed : Bytes} {calls : List Call}
    {input : List ReadResult} (h : sshNew E connSize hostSeed calls input = some s) :
    Sound s.toReceiver := by
  obtain ⟨hsession, hrx, -⟩ := sshNew_eq h
  refine ⟨?_, fun hlen => ?_⟩
  · rw [show s.link.conn = newConn hostSeed (E.hostPublic hostSeed).toList from
      congrArg Session.conn hsession]
    exact ⟨nofun, nofun, nofun⟩
  · rw [hrx] at hlen
    cases hlen

theorem Reachable.call {t : Server} (call : ApiCall) (h : Reachable E s)
    (hrun : runCall E call s = .ok ((), t)) : Reachable E t := by
  obtain ⟨connSize, hostSeed, calls, input, s₀, hnew, hruns⟩ := h
  exact ⟨connSize, hostSeed, calls, input, s₀, hnew, hruns.call call hrun⟩

/-- The receiver is sound in every state a connection reaches. -/
theorem Reachable.sound (h : Reachable E s) : Sound s.toReceiver := by
  obtain ⟨_, _, _, _, s₀, hnew, hruns⟩ := h
  exact (hruns.moves (sshNew_sound hnew)).sound (sshNew_sound hnew)

/-- The states inside a run, in the middle of a call as well: those that steps lead to. -/
def Visited (E : Env) (s : Session) : Prop :=
  ∃ hostSeed hostPub, Steps E ⟨newConn hostSeed hostPub, []⟩ s

theorem Reachable.visited (h : Reachable E s) : Visited E s.link.toSession := by
  obtain ⟨_, _, _, _, s₀, hstart, hruns⟩ := h
  have hsteps := (hruns.moves (sshNew_sound hstart)).1
  rw [(sshNew_eq hstart).1] at hsteps
  exact ⟨_, _, hsteps⟩

/-- Assertions that hold of a new connection and that every step keeps hold of every
state inside a run. -/
theorem Visited.invariant {I : Session → Prop} {s : Session} (h : Visited E s)
    (hnew : ∀ hostSeed hostPub, I ⟨newConn hostSeed hostPub, []⟩)
    (hstep : ∀ s t, Step E s t → I s → I t) : I s := by
  obtain ⟨hostSeed, hostPub, hsteps⟩ := h
  exact hsteps.invariant hstep (hnew hostSeed hostPub)

/-- The same for the states a connection reaches. -/
theorem Reachable.invariant {I : Session → Prop} (h : Reachable E s)
    (hnew : ∀ hostSeed hostPub, I ⟨newConn hostSeed hostPub, []⟩)
    (hstep : ∀ s t, Step E s t → I s → I t) : I s.link.toSession :=
  h.visited.invariant hnew hstep

/-- The one fault of the program: from a reachable state a call either returns or
overflows `clientVersion`. -/
theorem Reachable.fault_eq_versionOverflow (h : Reachable E s) {call : ApiCall} {f : Fault}
    (hrun : runCall E call s = .error f) : f = .versionOverflow :=
  ((serverInvariant_moves h.sound).runCall call (.refl h.sound.header)).error hrun

end EfiSshServer
