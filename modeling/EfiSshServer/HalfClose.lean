import EfiSshServer.ShimHost
import EfiSshServer.ShimScenario

/-!
# When the shim stops delivering output

`Disconnected` diverts the Shell's output to the local screen for good.  It is set on a
-1 of `SshWrite`, of `SshPoll` or of `SshRead`, and the three mean different things.
`SshRead` also returns -1 when the client has only ended its sending (`CHANNEL_EOF`) and
everything it sent is read, and `SshPoll` returns -1 on an open connection when a send was
given up.  In both cases the connection could still carry output.

After the loss the shim makes no more calls on the connection, so the connection stays as
the failed call left it.
-/

namespace EfiSshServer

open StateProgram

variable {E : Env} {fw : Firmware Server} {h h' : Server} {s t : Shim Server}

/-! ## What a result of -1 says -/

/-- The connection is closed, or the channel is being closed: no output can follow. -/
def OutputOver (c : Conn) : Prop :=
  c.state = .closed ∨ c.chan.closeSent = true ∨ c.chan.closeRecv = true

theorem sshRead_end (max : ℕ) :
    wp (sshRead E max) (fun out h' => out.1 < 0 →
      OutputOver h'.link.conn ∨ h'.link.conn.chan.remoteEof = true ∨
        h'.link.conn.chan.chanOpen = false) anyFault h := by
  simp only [sshRead, wp_bind]
  refine wp.imp wp.trivial fun _ h₁ _ => ?_
  rw [ServerM.wp_onLink]
  simp only [takeInput, wp_bind, LinkM.wp_conn]
  refine wp.ite (fun _ => wp.ite (fun hend _ => ?_) fun _ hneg => ?_) fun _ => ?_
  · rcases hend with hclosed | hclose | heof | hopen
    · exact .inl (.inl hclosed)
    · exact .inl (.inr (.inr hclose))
    · exact .inr (.inl heof)
    · exact .inr (.inr hopen)
  · exact absurd hneg (by decide)
  · simp only [wp_bind, wp_pure]
    refine wp.imp wp.trivial fun _ _ _ => wp.imp wp.trivial fun _ _ _ => ?_
    refine wp.imp wp.trivial fun _ _ _ hneg => ?_
    exact absurd hneg (by omega)

theorem sshPoll_end :
    wp (sshPoll E) (fun ret h' => ret < 0 →
      OutputOver h'.link.conn ∨ GaveUp h.link.log h'.link.log) anyFault h := by
  simp only [sshPoll, wp_bind]
  refine wp.imp processInput_stops fun out h' hstops hneg => ?_
  rcases hstops with ⟨-, hended⟩ | ⟨hpos, -⟩
  · exact hended.imp .inl And.left
  · omega

/-! ## The loss -/

/-- The events of a loss: `Disconnected` is set, or a write failed. -/
def ShimEvent.isLoss : ShimEvent Server → Bool
  | .gone .. => true
  | .wrote _ ok => !ok
  | _ => false

/-- Why this call made the shim set `Disconnected`, from the connection it left behind. -/
def Cause (source : LossSource) (before after : Server) : Prop :=
  match source with
  | .read => OutputOver after.link.conn ∨ after.link.conn.chan.remoteEof = true
  | .poll => OutputOver after.link.conn ∨ GaveUp before.link.log after.link.log
  | .write => True

/-- The one loss of a shim that is disconnected. -/
structure Loss (s : Shim Server) (source : LossSource) (before : Server) (notify : NotifyTable) :
    Prop where
  mem : .gone source before s.host notify ∈ s.log
  only : ∀ e ∈ s.log, e.isGone = true → e = .gone source before s.host notify
  wrote : (∃ bytes, .wrote bytes false ∈ s.log) ↔ source = .write
  cause : Cause source before s.host

/-- The connection is reachable with its channel open, and a loss is recorded exactly
when the shim is disconnected. -/
structure Recorded (E : Env) (s : Shim Server) : Prop where
  host : Reachable E s.host ∧ s.host.link.conn.chan.chanOpen = true
  live : s.disconnected = false → ∀ e ∈ s.log, e.isLoss = false
  dead : s.disconnected = true → ∃ source before notify, Loss s source before notify

theorem ShimEvent.isLoss_of_isTyping {e : ShimEvent Server} (htyping : e.isTyping = true) :
    e.isLoss = false := by
  cases e <;> first | rfl | cases htyping

theorem isGone_of_isLoss {e : ShimEvent Server} (hloss : e.isLoss = false) : e.isGone = false := by
  cases e <;> first | rfl | cases hloss

/-- New events without a loss, and the connection stays as it is once it is lost. -/
theorem Recorded.quiet (es : List (ShimEvent Server)) (hs : Recorded E s)
    (hlog : t.log = es ++ s.log) (hes : ∀ e ∈ es, e.isLoss = false)
    (hconn : t.disconnected = s.disconnected)
    (hopen : Reachable E t.host ∧ t.host.link.conn.chan.chanOpen = true)
    (hhost : s.disconnected = true → t.host = s.host) : Recorded E t := by
  refine ⟨hopen, fun hlive e he => ?_, fun hdead => ?_⟩
  · rw [hlog] at he
    exact (List.mem_append.mp he).elim (hes e) (hs.live (hconn ▸ hlive) e)
  · rw [hconn] at hdead
    obtain ⟨source, before, notify, hloss⟩ := hs.dead hdead
    refine ⟨source, before, notify, ?_⟩
    have hmem : ∀ e : ShimEvent Server, e.isLoss = true → (e ∈ t.log ↔ e ∈ s.log) := by
      intro e he
      rw [hlog, List.mem_append]
      exact or_iff_right fun hnew => absurd (he.symm.trans (hes e hnew)) (by decide)
    constructor
    · rw [hmem _ rfl, hhost hdead]
      exact hloss.mem
    · intro e he hgone
      rw [hhost hdead]
      refine hloss.only e ((hmem e ?_).mp he) hgone
      cases e <;> first | rfl | cases hgone
    · rw [← hloss.wrote]
      exact exists_congr fun bytes => hmem _ rfl
    · rw [hhost hdead]
      exact hloss.cause

/-- The step of the loss itself; `es` are the events behind it, and `es'` before. -/
theorem Recorded.lost (source : LossSource) (es es' : List (ShimEvent Server))
    {notify : NotifyTable} (hs : Recorded E s) (hconn : s.disconnected = false)
    (hlog : t.log = es ++ .gone source s.host t.host notify :: (es' ++ s.log))
    (hes : ∀ e ∈ es, e.isLoss = false) (hes' : ∀ e ∈ es', e.isGone = false)
    (hwrote : (∃ bytes, .wrote bytes false ∈ es') ↔ source = .write)
    (hdead : t.disconnected = true)
    (hopen : Reachable E t.host ∧ t.host.link.conn.chan.chanOpen = true)
    (hcause : Cause source s.host t.host) : Recorded E t := by
  refine ⟨hopen, fun hlive => absurd (hdead.symm.trans hlive) (by decide), fun _ => ?_⟩
  refine ⟨source, s.host, notify, ?_, fun e he hgone => ?_, ?_, hcause⟩
  · rw [hlog]
    simp
  · rw [hlog, List.mem_append, List.mem_cons, List.mem_append] at he
    rcases he with hnew | rfl | hold' | hold
    · exact absurd (hgone.symm.trans (isGone_of_isLoss (hes e hnew))) (by decide)
    · rfl
    · exact absurd (hgone.symm.trans (hes' e hold')) (by decide)
    · exact absurd (hgone.symm.trans (isGone_of_isLoss (hs.live hconn e hold))) (by decide)
  · rw [← hwrote]
    refine exists_congr fun bytes => ?_
    rw [hlog, List.mem_append, List.mem_cons, List.mem_append]
    constructor
    · rintro (hnew | heq | hold' | hold)
      · exact absurd (hes _ hnew) nofun
      · cases heq
      · exact hold'
      · exact absurd (hs.live hconn _ hold) nofun
    · exact fun hold' => .inr (.inr (.inl hold'))

theorem Recorded.step (hstep : ShimStep (serverSsh E) fw s t) (hs : Recorded E s) :
    Recorded E t := by
  have hopen := hstep.host serverSsh_keeps_open hs.host
  have htyping : ∀ {es : List (ShimEvent Server)}, (∀ e ∈ es, e.isTyping = true) →
      ∀ e ∈ es, e.isLoss = false :=
    fun hes e he => ShimEvent.isLoss_of_isTyping (hes e he)
  cases hstep with
  | pulled bytes host hconn hread =>
      have htyped := feedAll_typed fw bytes
        { s with host := host, log := .pulled bytes s.keyboard :: s.log }
      obtain ⟨es, hlog, hes⟩ := htyped.log
      refine hs.quiet (es ++ [.pulled bytes s.keyboard]) ?_ (fun e he => ?_) htyped.disconnected
        hopen fun hdead => absurd (hconn.symm.trans hdead) (by decide)
      · rw [hlog, List.append_assoc, List.singleton_append]
      · rcases List.mem_append.mp he with hnew | hpulled
        · exact htyping hes e hnew
        · rw [List.mem_singleton.mp hpulled]
          rfl
  | readLost host hconn hread =>
      have htyped := (fireBreak_typed (EfiSshServer.lost .read host s)).trans (injectExit_typed _)
      obtain ⟨es, hlog, hes⟩ := htyped.log
      have hhost : (injectExit (fireBreak (EfiSshServer.lost .read host s))).host = host :=
        htyped.host
      have hlog' : (injectExit (fireBreak (EfiSshServer.lost .read host s))).log =
          es ++ .gone .read s.host (injectExit (fireBreak (EfiSshServer.lost .read host s))).host
            s.keyboard.notify :: ([] ++ s.log) := by
        rw [hlog, hhost]
        rfl
      refine hs.lost .read es [] hconn hlog' (htyping hes) (by simp) (by simp)
        htyped.disconnected hopen ?_
      · obtain ⟨ret, bytes, hcall, hneg⟩ := serverSsh_read hread
        rw [hhost] at hopen ⊢
        -- `SshRead` reports three losses; that the channel was closed is none on an open channel
        rcases (sshRead_end pumpBuf).ok hcall (hneg.mp rfl) with hover | heof | hclosed
        · exact .inl hover
        · exact .inr heof
        · rw [hopen.2] at hclosed
          cases hclosed
  | injected hgone =>
      obtain ⟨es, hlog, hes⟩ := (injectExit_typed s).log
      exact hs.quiet es hlog (htyping hes) (injectExit_typed s).disconnected hopen
        fun _ => (injectExit_typed s).host
  | checked hconn =>
      obtain ⟨es, hlog, hes⟩ := (checkEsc_typed fw s).log
      exact hs.quiet es hlog (htyping hes) (checkEsc_typed fw s).disconnected hopen
        fun _ => (checkEsc_typed fw s).host
  | polled host hconn =>
      exact hs.quiet [] rfl (by simp) rfl hopen
        fun hdead => absurd (hconn.symm.trans hdead) (by decide)
  | pollLost host hconn hpoll =>
      refine hs.lost .poll [] [] hconn rfl (by simp) (by simp) (by simp) rfl hopen ?_
      obtain ⟨ret, hcall, hneg⟩ := serverSsh_poll hpoll
      exact sshPoll_end.ok hcall (hneg.mp rfl)
  | wrote rounds bytes host hconn =>
      exact hs.quiet [.wrote bytes true] rfl (by simp [ShimEvent.isLoss]) rfl hopen
        fun hdead => absurd (hconn.symm.trans hdead) (by decide)
  | writeLost rounds bytes host hconn =>
      -- nothing is asked of a failed write
      refine hs.lost .write [] [.wrote bytes false] hconn rfl (by simp)
        (by simp [ShimEvent.isGone]) ?_ rfl hopen trivial
      simp
  | popped hkey => exact hs.quiet [_] rfl (by simp; rfl) rfl hopen fun _ => rfl
  | reset keyboard => exact hs.quiet [.inputReset] rfl (by simp; rfl) rfl hopen fun _ => rfl
  | registered i n => exact hs.quiet [] rfl (by simp) rfl hopen fun _ => rfl
  | noted e hnote =>
      have hloss : e.isLoss = false := by cases e <;> first | rfl | cases hnote
      exact hs.quiet [e] rfl (by simpa using hloss) rfl hopen fun _ => rfl

/-! ## Diverted output -/

/-- The output is diverted only when it cannot be delivered. -/
def DivertedRightly (s : Shim Server) : Prop :=
  s.disconnected = true →
    OutputOver s.host.link.conn ∨ ∃ bytes, .wrote bytes false ∈ s.log

/-- A loss that is not just the end of the client's input, nor a send that a poll gave up
while output could follow. -/
def RealLoss : ShimEvent Server → Prop
  | .gone .read _ after _ => after.link.conn.chan.remoteEof = true → OutputOver after.link.conn
  | .gone .poll before after _ =>
      GaveUp before.link.log after.link.log → OutputOver after.link.conn
  | _ => True

/-- `Disconnected` means that no output can follow if and only if it was not set on the
client's end of input alone, nor on a send given up in a poll. -/
theorem diverted_rightly_iff {host : Server} {c : Console Server}
    (hhost : Reachable E host) (hready : host.link.conn.chan.shellReady = true)
    (h : ShimReachable (serverSsh E) fw host c) :
    DivertedRightly c.toShim ↔ ∀ e ∈ c.log, RealLoss e := by
  have hstart : Recorded E (zeroConsole host).toShim := by
    refine ⟨⟨hhost, hhost.open_of_ready hready⟩, fun _ e he => ?_, fun hdead => ?_⟩
    · cases he
    · cases hdead
  have hrecorded := h.invariant (fun _ _ => Recorded.step) hstart
  constructor
  · intro hright e he
    cases e with
    | gone source before after notify =>
        have hdead : c.disconnected = true := by
          by_contra hlive
          have hnone := hrecorded.live (by simpa using hlive) _ he
          cases hnone
        obtain ⟨source', before', notify', hloss⟩ := hrecorded.dead hdead
        cases hloss.only _ he rfl
        cases source with
        | write => trivial
        | read | poll =>
            intro _
            rcases hright hdead with hover | hwrote
            · exact hover
            · cases hloss.wrote.mp hwrote
    | _ => trivial
  · intro hreal hdead
    obtain ⟨source, before, notify, hloss⟩ := hrecorded.dead hdead
    have hcond := hreal _ hloss.mem
    cases source with
    | read => exact .inl (hloss.cause.elim id hcond)
    | poll => exact .inl (hloss.cause.elim id hcond)
    | write => exact .inr (hloss.wrote.mpr rfl)

/-- A Shell that waits for a key, and a transport that is lost. -/
theorem diverted_rightly_lost : ∃ (host : Server) (c : Console Server),
    Reachable (plainEnv fun _ _ => true) host ∧ host.link.conn.chan.shellReady = true ∧
    ShimReachable (serverSsh (plainEnv fun _ _ => true)) quietFirmware host c ∧
    c.disconnected = true ∧ (DivertedRightly c.toShim ↔ ∀ e ∈ c.log, RealLoss e) := by
  obtain ⟨host, c, hhost, hready, hreach, hdead⟩ := exists_shim (E := plainEnv fun _ _ => true)
    (P := fun c => c.disconnected = true) [.waitKey]
    [.data (clientShell "root" "secret"), .data [], .lost] (by decide +kernel)
  exact ⟨host, c, hhost, hready, hreach, hdead, diverted_rightly_iff hhost hready hreach⟩

/-- A client that ends its sending and waits for the output: the next pump diverts it. -/
theorem diverted_at_eof : ∃ (host : Server) (c : Console Server),
    Reachable (plainEnv fun _ _ => true) host ∧ host.link.conn.chan.shellReady = true ∧
    ShimReachable (serverSsh (plainEnv fun _ _ => true)) quietFirmware host c ∧
    ¬ DivertedRightly c.toShim := by
  obtain ⟨host, c, hhost, hready, hreach, hdead, hopen, hwrote⟩ :=
    exists_shim (E := plainEnv fun _ _ => true)
      (P := fun c => c.disconnected = true ∧
        (c.host.link.conn.state = .conn ∧ c.host.link.conn.chan.closeSent = false ∧
          c.host.link.conn.chan.closeRecv = false) ∧
        (c.log.all fun | .wrote _ ok => ok | _ => true) = true)
      [.waitKey]
      [.data (clientShell "root" "secret"), .data [],
        .data (sealedFrame (channelReplyPayload msgChannelEof 0))] (by decide +kernel)
  refine ⟨host, c, hhost, hready, hreach, fun hright => ?_⟩
  rcases hright hdead with (hclosed | hsent | hrecv) | ⟨bytes, hfailed⟩
  · rw [hopen.1] at hclosed
    cases hclosed
  · rw [hopen.2.1] at hsent
    cases hsent
  · rw [hopen.2.2] at hrecv
    cases hrecv
  · have hok := List.all_eq_true.mp hwrote _ hfailed
    cases hok

end EfiSshServer
