import EfiSshServer.PollEnd
import EfiSshServer.ShimSteps

/-!
# The server under the shim

The calls of the shim are calls of the API, so the server under it is in a reachable
state.  Of the connection itself the shim depends on little: that the channel it was
installed on stays open, and the window size.
-/

namespace EfiSshServer

open StateProgram

variable {E : Env} {s t : Session} {h h' : Server} {told : Prop}

/-! ## The calls -/

theorem hostCall_ok {α : Type} {m : ServerM α} {a : α} (hrun : hostCall m h = .ok (a, h')) :
    m h = .ok (a, h') := by
  unfold hostCall at hrun
  split at hrun
  · next hm => rw [hm, Except.ok.inj hrun]
  · cases hrun

theorem serverSsh_read {max : ℕ} {out : Option Bytes}
    (hrun : (serverSsh E).read max h = .ok (out, h')) :
    ∃ ret bytes, sshRead E max h = .ok ((ret, bytes), h') ∧ (out = none ↔ ret < 0) := by
  have hcall : wp ((serverSsh E).read max) (fun out h' => ∃ ret bytes,
      sshRead E max h = .ok ((ret, bytes), h') ∧ (out = none ↔ ret < 0)) anyStop h := by
    simp only [serverSsh, wp_bind, wp_pure]
    refine wp_of_forall (fun out h' hout => ⟨out.1, out.2, hostCall_ok hout, ?_⟩) fun _ _ => trivial
    split <;> simp_all
  exact hcall.ok hrun

theorem serverSsh_poll {ok : Bool} (hrun : (serverSsh E).poll h = .ok (ok, h')) :
    ∃ ret, sshPoll E h = .ok (ret, h') ∧ (ok = false ↔ ret < 0) := by
  have hcall : wp (serverSsh E).poll (fun ok h' => ∃ ret, sshPoll E h = .ok (ret, h') ∧
      (ok = false ↔ ret < 0)) anyStop h := by
    simp only [serverSsh, wp_bind, wp_pure]
    exact wp_of_forall (fun ret h' hret => ⟨ret, hostCall_ok hret, by simp⟩) fun _ _ => trivial
  exact hcall.ok hrun

theorem serverSsh_write {rounds : ℕ} {bytes : Bytes} {ok : Bool}
    (hrun : (serverSsh E).write rounds bytes h = .ok (ok, h')) :
    ∃ ret, sshWrite E rounds bytes h = .ok (some ret, h') := by
  have hcall : wp ((serverSsh E).write rounds bytes) (fun _ h' => ∃ ret,
      sshWrite E rounds bytes h = .ok (some ret, h')) anyStop h := by
    simp only [serverSsh, wp_bind]
    refine wp_of_forall (fun out h' hout => ?_) fun _ _ => trivial
    cases out with
    | none => trivial
    | some ret => exact ⟨ret, hostCall_ok hout⟩
  exact hcall.ok hrun

/-- An assertion that the calls of the API keep. -/
theorem serverSsh_keeps {P : Server → Prop}
    (hP : ∀ {h h'} (call : ApiCall), P h → runCall E call h = .ok ((), h') → P h') :
    (serverSsh E).Keeps P where
  read hs hrun := by
    obtain ⟨ret, bytes, hread, -⟩ := serverSsh_read hrun
    exact hP (.read pumpBuf) hs (bind_ok hread)
  write hs hrun := by
    obtain ⟨ret, hwrite⟩ := serverSsh_write hrun
    exact hP (.write _ _) hs (bind_ok hwrite)
  poll hs hrun := by
    obtain ⟨ret, hpoll, -⟩ := serverSsh_poll hrun
    exact hP .poll hs (bind_ok hpoll)

/-! ## What the shim sees of the connection -/

structure ChannelView where
  chanOpen : Bool
  shellReady : Bool
  cols : UInt32
  rows : UInt32

def Channel.view (ch : Channel) : ChannelView := ⟨ch.chanOpen, ch.shellReady, ch.cols, ch.rows⟩

/-- What a step of the connection does to it, if `told` says that the client has told its
window size. -/
inductive ViewStep (told : Prop) (v : ChannelView) : ChannelView → Prop
  | same : ViewStep told v v
  | opened : ViewStep told v { v with chanOpen := true }
  | shell (hopen : v.chanOpen = true) : ViewStep told v { v with shellReady := true }
  | resized (htold : told) (cols rows : UInt32) : ViewStep told v
      { v with
        cols := if cols > 0 ∧ cols < 1000 then cols else v.cols
        rows := if rows > 0 ∧ rows < 1000 then rows else v.rows }

theorem ViewStep.of_view {a b : Channel} (h : b.view = a.view) : ViewStep told a.view b.view := by
  rw [h]
  exact .same

theorem ViewStep.of_chan {a b : Channel} (h : b = a) : ViewStep told a.view b.view :=
  .of_view (congrArg Channel.view h)

theorem ViewStep.chanOpen {v w : ChannelView} (hstep : ViewStep told v w)
    (hopen : v.chanOpen = true) : w.chanOpen = true := by
  cases hstep with
  | opened => rfl
  | same | shell | resized => exact hopen

theorem ViewStep.size_eq {v w : ChannelView} (hstep : ViewStep told v w) (htold : ¬ told) :
    w.cols = v.cols ∧ w.rows = v.rows := by
  cases hstep with
  | resized h => exact absurd h htold
  | same | opened | shell => exact ⟨rfl, rfl⟩

theorem Step.view (hstep : Step E s t) : ViewStep (∃ q, Handling s q ∧ tellsSize q = true)
    s.conn.chan.view t.conn.chan.view := by
  cases hstep with
  | disconnect h | authExhausted _ _ h => exact .of_chan h.frame.chan
  | reply _ _ h | writeLost _ _ h | authAccepted _ _ _ _ h | authRejected _ _ _ _ _ h =>
      exact .of_chan h.frame.chan
  | firstKexInit _ _ _ h =>
      exact .of_chan (h.keeps (I := fun u => u.conn.chan = s.conn.chan) (fun _ _ hu => hu)
        (fun _ _ h hu => h.frame.chan.trans hu) rfl)
  | firstKexInitFailed _ _ h =>
      exact .of_chan (h.keeps (I := fun u => u.conn.chan = s.conn.chan) (fun _ _ hu => hu)
        (fun _ _ h hu => h.frame.chan.trans hu) rfl)
  | kexInit _ _ hend =>
      exact .of_chan (hend.keeps (I := fun u => u.conn.chan = s.conn.chan) (fun _ _ hu => hu)
        (fun _ _ h hu => h.frame.chan.trans hu) (fun _ _ hu => hu) rfl)
  | exchange _ _ hend =>
      exact .of_chan (hend.keeps (I := fun u => u.conn.chan = s.conn.chan)
        (fun _ _ h hu => h.frame.chan.trans hu) (fun _ _ _ hu => hu) rfl)
  | newKeys _ _ hend =>
      exact .of_chan (hend.keeps (I := fun u => u.conn.chan = s.conn.chan)
        (fun _ _ h hu => h.frame.chan.trans hu) (fun _ hu => hu) rfl)
  | openChannel _ _ _ _ _ _ _ _ h =>
      rw [h.frame.chan]
      exact .opened
  | resize cols rows hq hsize => exact .resized ⟨_, hq, hsize⟩ cols rows
  | shell _ hopen => exact .shell hopen
  | closeReply _ _ _ _ h =>
      rw [h.frame.chan]
      exact .same
  | read max _ hcredit =>
      obtain ⟨u, consumed, hsends, rfl⟩ := hcredit.sends
      exact .of_chan hsends.frame.chan
  | writeData _ _ _ _ _ h =>
      have hview := congrArg Channel.view h.frame.chan
      exact .of_view hview
  | startClose _ _ _ _ h =>
      obtain ⟨u, hsends, rfl⟩ := h.sends
      have hview := congrArg Channel.view hsends.frame.chan
      exact .of_view hview
  | _ => exact .same

/-- An assertion about the view that steps keep. -/
theorem Reachable.view_invariant {P : ChannelView → Prop} (hreach : Reachable E h)
    (hnew : P ⟨false, false, 80, 25⟩) (hstep : ∀ {told} v w, ViewStep told v w → P v → P w) :
    P h.link.conn.chan.view :=
  hreach.invariant (I := fun s => P s.conn.chan.view) (fun _ _ => hnew)
    fun _ _ hs => hstep _ _ hs.view

/-- A shell runs on an open channel. -/
theorem Reachable.open_of_ready (hreach : Reachable E h)
    (hready : h.link.conn.chan.shellReady = true) : h.link.conn.chan.chanOpen = true := by
  refine hreach.view_invariant (P := fun v => v.shellReady = true → v.chanOpen = true) nofun
    (fun v w hstep hv hready => ?_) hready
  cases hstep with
  | same | resized => exact hv hready
  | opened => rfl
  | shell hopen => exact hopen

/-- The window size the client sets, or the default. -/
theorem Reachable.window_lt (hreach : Reachable E h) :
    h.link.conn.chan.cols < 1000 ∧ h.link.conn.chan.rows < 1000 := by
  refine hreach.view_invariant (P := fun v => v.cols < 1000 ∧ v.rows < 1000) (by decide)
    fun v w hstep hv => ?_
  cases hstep with
  | resized cols rows =>
      refine ⟨?_, ?_⟩
      · dsimp only
        split
        · next hset => exact hset.2
        · exact hv.1
      · dsimp only
        split
        · next hset => exact hset.2
        · exact hv.2
  | _ => exact hv

/-- A call is a sequence of steps of the connection. -/
theorem Reachable.call_steps {call : ApiCall} (hreach : Reachable E h)
    (hrun : runCall E call h = .ok ((), h')) : Steps E h.link.toSession h'.link.toSession :=
  ((Runs.none.call call hrun).moves hreach.sound).1

/-- The channel stays open under the shim. -/
theorem serverSsh_keeps_open :
    (serverSsh E).Keeps fun h => Reachable E h ∧ h.link.conn.chan.chanOpen = true := by
  refine serverSsh_keeps fun call ⟨hreach, hopen⟩ hrun => ⟨hreach.call call hrun, ?_⟩
  exact (hreach.call_steps hrun).invariant (I := fun s => s.conn.chan.chanOpen = true)
    (fun _ _ (hstep : Step E _ _) hs => hstep.view.chanOpen hs) hopen

end EfiSshServer
