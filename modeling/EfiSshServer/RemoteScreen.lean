import EfiSshServer.Mirror
import EfiSshServer.OutStream
import EfiSshServer.ScreenBounds
import EfiSshServer.Tuning
import EfiSshServer.Writing

/-!
# From the Shell to the screen of the client

Between a string that the Shell prints and the character on the other end stand the output
buffer of the shim, the chunks of `SshWrite`, the packets and their cipher.  As long as the
shim holds its connection, none of them loses, repeats or adds a byte: what the channel
carried since the shim was installed is what the shim has flushed (`Carries`).

`remote_screen` puts this between `stream_decodes` and `display_refines`.
-/

namespace EfiSshServer

open StateProgram History DeferredWrap

variable {E : Env} {fw : Firmware Server} {rounds : ℕ} {host : Server} {con con' : Console Server}

theorem Reachable.runs (h : Reachable E host) {s : Server} (hruns : Runs E host s) :
    Reachable E s := by
  obtain ⟨connSize, hostSeed, calls, input, s₀, hnew, hbefore⟩ := h
  exact ⟨connSize, hostSeed, calls, input, s₀, hnew, hbefore.trans hruns⟩

/-! ## Reading writes nothing -/

/-- `Flush` looks only for the 0. -/
theorem serverSsh_write_zero {bytes : Bytes} {h h' : Server} {ok : Bool}
    (hwrite : (serverSsh E).write rounds bytes h = .ok (ok, h')) :
    ∃ ret, sshWrite E rounds bytes h = .ok (some ret, h') ∧ (ok = true → ret = 0) := by
  have hcall : wp ((serverSsh E).write rounds bytes) (fun ok h' => ∃ ret,
      sshWrite E rounds bytes h = .ok (some ret, h') ∧ (ok = true → ret = 0)) anyStop h := by
    simp only [serverSsh, wp_bind]
    refine wp_of_forall (fun out h' hout => ?_) fun _ _ => trivial
    cases out with
    | none => trivial
    | some ret => exact ⟨ret, hostCall_ok hout, of_decide_eq_true⟩
  exact hcall.ok hwrite

/-! ## The channel carries what the shim flushes -/

/-- The bytes of the channel since `start` are those flushed behind `older`, and `ahead`, until
the shim has lost its connection. -/
structure Carries (E : Env) (start : Server) (older ahead : Bytes) (s : Shim Server) :
    Prop where
  runs : Runs E start s.host
  data : ∃ es, s.host.link.log = es ++ start.link.log ∧
    (s.disconnected = false → older ++ writtenData es = flushedBytes s.log ++ ahead)

variable {start : Server} {s t : Shim Server} {older ahead bytes : Bytes}

/-- The connection was used, and nothing was written to it. -/
theorem Carries.passive {h : Server} (hs : Carries E start older ahead s) (call : ApiCall)
    (hrun : runCall E call s.host = .ok ((), h))
    (hpassive : Passive s.host.link.toSession h.link.toSession) :
    Carries E start older ahead { s with host := h } := by
  obtain ⟨hruns, es, hes, hdata⟩ := hs
  obtain ⟨es', hes', hnone⟩ := hpassive.log
  refine ⟨hruns.call call hrun, es' ++ es, ?_, fun hheld => ?_⟩
  · rw [List.append_assoc, ← hes]
    exact hes'
  · rw [writtenData_append, writtenData_of_none hnone, List.append_nil]
    exact hdata hheld

/-- A call of `SshWrite` that returns 0 has sent its buffer. -/
theorem Carries.write {h : Server} {ok : Bool} (hs : Carries E start older [] s)
    (hstart : Reachable E start)
    (hwrite : (serverSsh E).write rounds bytes s.host = .ok (ok, h)) :
    Carries E start older bytes { s with host := h, disconnected := s.disconnected || !ok } := by
  obtain ⟨hruns, es, hes, hdata⟩ := hs
  obtain ⟨ret, hrun, hok⟩ := serverSsh_write_zero hwrite
  obtain ⟨es', hes', -, hall, -⟩ := (sshWrite_writes rounds (hstart.runs hruns).sound).ok hrun
  refine ⟨hruns.call (.write rounds bytes) (bind_ok hrun), es' ++ es, ?_, fun hheld => ?_⟩
  · rw [List.append_assoc, ← hes]
    exact hes'
  · simp only [Bool.or_eq_false_iff, Bool.not_eq_false'] at hheld
    rw [writtenData_append, hall (congrArg some (hok hheld.2)), ← List.append_assoc older,
      hdata hheld.1, List.append_nil]

/-- The bytes of the channel and those flushed are the same as before. -/
theorem Carries.congr (hs : Carries E start older ahead s) (hhost : t.host = s.host)
    (hheld : t.disconnected = false → s.disconnected = false ∧
      flushedBytes t.log = flushedBytes s.log) : Carries E start older ahead t := by
  obtain ⟨hruns, es, hes, hdata⟩ := hs
  refine ⟨hhost ▸ hruns, es, hhost ▸ hes, fun hdisc => ?_⟩
  rw [(hheld hdisc).2]
  exact hdata (hheld hdisc).1

theorem Carries.record {e : ShimEvent Server} (hs : Carries E start older ahead s)
    (he : e.isOutput = false) : Carries E start older ahead { s with log := e :: s.log } :=
  hs.congr rfl fun hheld => ⟨hheld, flushedBytes_cons he⟩

theorem PlainRuns.outBuf {calls : List ConsoleCall}
    (h : PlainRuns (serverSsh E) fw con calls con') (hempty : con.outBuf = []) :
    con'.outBuf = [] := by
  induction h with
  | none => exact hempty
  | call _ rounds call _ hrun ih => exact (runConsole_outBuf call ih).ok hrun

theorem PageRuns.outBuf {calls : List ConsoleCall}
    (h : PageRuns (serverSsh E) fw con calls con') (hempty : con.outBuf = []) :
    con'.outBuf = [] := by
  induction h with
  | none => exact hempty
  | call _ rounds call _ _ hrun ih => exact (runConsole_outBuf call ih).ok hrun

end EfiSshServer
