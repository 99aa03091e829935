import EfiSshServer.KexSteps
import EfiSshServer.Runs

/-!
# Where `clientVersion` comes from

The client may send other lines before its version line.  `IsVersionLine` says which line
of a stream is meant, and `Runs.clientVersion` that `clientVersion` is that line of what
the transport delivers, whatever else is called meanwhile.

* Until the version is known, only whole lines that are not version lines have been
  dropped, so the version line of the bytes still to come is that of the stream.
* From then on no step changes it: `Step.clientVersion`.
-/

namespace EfiSshServer

open StateProgram RecvM

variable {E : Env} {b line other stream : Bytes} {r : Receiver} {s s₀ : Server}

/-! ## Lines -/

/-- `line` is the first line of `stream` that starts with `SSH-`, without its line end. -/
def IsVersionLine (line stream : Bytes) : Prop :=
  ∃ (before : List Bytes) (ending rest : Bytes),
    stream = before.flatMap (· ++ [lf]) ++ (line ++ ending ++ rest) ∧
      (∀ other ∈ before, lf ∉ other ∧ ¬ ascii "SSH-" <+: other) ∧
      (lf ∉ line ∧ ascii "SSH-" <+: line) ∧
      (ending = [cr, lf] ∨ ending = [lf] ∧ line.getLast? ≠ some cr)

/-- Another line in front. -/
theorem IsVersionLine.skip (h : IsVersionLine line stream) (hlf : lf ∉ other)
    (hother : ¬ ascii "SSH-" <+: other) : IsVersionLine line (other ++ [lf] ++ stream) := by
  obtain ⟨before, ending, rest, rfl, hbefore, hline, hending⟩ := h
  refine ⟨other :: before, ending, rest, by simp, ?_, hline, hending⟩
  exact List.forall_mem_cons.mpr ⟨⟨hlf, hother⟩, hbefore⟩

theorem isSshLine_iff : isSshLine line = true ↔ ascii "SSH-" <+: line := by
  have hlength : (ascii "SSH-").length = 4 := by decide
  rw [isSshLine, Bool.and_eq_true, decide_eq_true_iff, decide_eq_true_iff,
    List.prefix_iff_eq_take, hlength]
  constructor
  · exact fun h => h.2.symm
  · intro h
    have hle := congrArg List.length h
    rw [hlength, List.length_take] at hle
    exact ⟨by omega, h.symm⟩

/-- The first line with its line feed, and what follows. -/
theorem eq_line_append (h : lineEnd b < b.length) :
    b = b.take (lineEnd b) ++ [lf] ++ b.drop (lineEnd b + 1) ∧ lf ∉ b.take (lineEnd b) := by
  have hsplit : b.takeWhile (· ≠ lf) ++ b.dropWhile (· ≠ lf) = b := List.takeWhile_append_dropWhile
  have htake : b.take (lineEnd b) = b.takeWhile (· ≠ lf) :=
    (congrArg (List.take (lineEnd b)) hsplit).symm.trans List.take_left
  have hdrop : b.drop (lineEnd b) = b.dropWhile (· ≠ lf) :=
    (congrArg (List.drop (lineEnd b)) hsplit).symm.trans List.drop_left
  have hcons := List.drop_eq_getElem_cons h
  have hhead : b[lineEnd b] = lf := by
    have hnot := List.head?_dropWhile_not (fun x : UInt8 => decide (x ≠ lf)) b
    rw [← hdrop, hcons, List.head?_cons] at hnot
    simpa using hnot
  refine ⟨?_, fun hmem => ?_⟩
  · rw [← hhead, List.append_assoc, List.singleton_append, ← hcons, List.take_append_drop]
  · rw [htake] at hmem
    simpa using List.all_eq_true.mp List.all_takeWhile lf hmem

/-- What `firstLine` takes off the line. -/
theorem firstLine_ending (h : lineEnd b < b.length) : ∃ ending,
    b.take (lineEnd b) = firstLine b ++ ending ∧
      (ending = [cr] ∨ ending = [] ∧ (firstLine b).getLast? ≠ some cr) := by
  rw [firstLine]
  cases hend : lineEnd b with
  | zero => exact ⟨[], by simp, .inr ⟨rfl, by simp⟩⟩
  | succ n =>
      have hn : n < b.length := by omega
      have htake : b.take (n + 1) = b.take n ++ [b[n]] := List.take_succ_eq_append_getElem hn
      have hget : b.getD (n + 1 - 1) 0 = b[n] := by
        rw [Nat.add_sub_cancel, List.getD_eq_getElem?_getD, List.getElem?_eq_getElem hn]
        rfl
      by_cases hcr : b[n] = cr
      · rw [if_pos ⟨Nat.succ_pos n, hget.trans hcr⟩]
        exact ⟨[cr], by rw [htake, hcr, Nat.add_sub_cancel], .inl rfl⟩
      · rw [if_neg fun hand => hcr (hget.symm.trans hand.2)]
        refine ⟨[], (List.append_nil _).symm, .inr ⟨rfl, ?_⟩⟩
        rw [htake, List.getLast?_append, List.getLast?_singleton]
        simpa using hcr

/-- A version line at the front of the stream. -/
theorem isVersionLine_firstLine (h : lineEnd b < b.length) (hssh : isSshLine (firstLine b) = true)
    (more : Bytes) : IsVersionLine (firstLine b) (b ++ more) := by
  obtain ⟨hb, hlf⟩ := eq_line_append h
  obtain ⟨ending, htake, hending⟩ := firstLine_ending h
  rw [htake] at hb hlf
  refine ⟨[], ending ++ [lf], b.drop (lineEnd b + 1) ++ more, ?_, by simp, ?_, ?_⟩
  · rw [List.flatMap_nil, List.nil_append]
    simpa using congrArg (· ++ more) hb
  · exact ⟨fun hmem => hlf (List.mem_append_left _ hmem), isSshLine_iff.mp hssh⟩
  · obtain rfl | ⟨rfl, hlast⟩ := hending
    · exact .inl rfl
    · exact .inr ⟨rfl, hlast⟩

/-- A carriage return more makes no version line. -/
theorem not_prefix_line (h : lineEnd b < b.length) (hssh : ¬ isSshLine (firstLine b) = true) :
    ¬ ascii "SSH-" <+: b.take (lineEnd b) := by
  obtain ⟨ending, htake, hending⟩ := firstLine_ending h
  rw [htake]
  rw [isSshLine_iff] at hssh
  obtain rfl | ⟨rfl, -⟩ := hending
  · rw [List.prefix_concat_iff]
    refine not_or.mpr ⟨fun heq => ?_, hssh⟩
    have hlast := congrArg List.getLast? heq
    rw [List.getLast?_concat] at hlast
    exact absurd hlast (by decide)
  · rwa [List.append_nil]

/-- Any other line is not the version line of the stream. -/
theorem IsVersionLine.of_drop {more : Bytes} (hend : lineEnd b < b.length)
    (hssh : ¬ isSshLine (firstLine b) = true)
    (h : IsVersionLine line (b.drop (lineEnd b + 1) ++ more)) : IsVersionLine line (b ++ more) := by
  obtain ⟨hb, hlf⟩ := eq_line_append hend
  have hskip := h.skip hlf (not_prefix_line hend hssh)
  rwa [← List.append_assoc, ← hb] at hskip

/-! ## The version exchange -/

theorem StepsOf.clientVersion {A : Prop} {s t : Session} (h : StepsOf A E s t)
    (hs : s.conn.state ≠ .version) : t.conn.clientVersion = s.conn.clientVersion := by
  have hkept := h.invariant (I := fun u => u.conn.state ≠ .version ∧
    u.conn.clientVersion = s.conn.clientVersion) (fun u v hstep hu =>
      ⟨hstep.step.state_ne_version hu.1, (hstep.step.clientVersion hu.1).trans hu.2⟩) ⟨hs, rfl⟩
  exact hkept.2

/-- `clientVersion` was kept and the stream lost at most lines that do not count, or its
version line was stored. -/
def VersionMoves (r r' : Receiver) : Prop :=
  (r'.link.conn.clientVersion = r.link.conn.clientVersion ∧
    (r'.link.conn.state = .version → ∀ line more,
      IsVersionLine line (r'.rx.buf ++ more) → IsVersionLine line (r.rx.buf ++ more))) ∨
  (r.link.conn.state = .version ∧ r'.link.conn.state ≠ .version ∧
    ∀ more, IsVersionLine r'.link.conn.clientVersion (r.rx.buf ++ more))

theorem VersionMoves.of_ne_version {r' : Receiver}
    (hversion : r'.link.conn.clientVersion = r.link.conn.clientVersion)
    (hstate : r'.link.conn.state ≠ .version) : VersionMoves r r' :=
  .inl ⟨hversion, fun h => absurd h hstate⟩

theorem fail_versionMoves (reason : UInt32) (msg : String) :
    wp (onLink (fail E reason msg)) (fun _ r' => VersionMoves r r') (fun _ => True) r := by
  rw [wp_onLink]
  refine wp.imp (fail_farewell reason msg) fun ret l' h => ?_
  exact .of_ne_version h.2.frame.clientVersion (by rw [h.2.closed]; decide)

theorem tryVersionLine_versionMoves (hversion : r.link.conn.state = .version) :
    wp (tryVersionLine E) (fun _ r' => VersionMoves r r') (fun _ => True) r := by
  simp only [tryVersionLine, wp_bind, wp_rx]
  refine wp.ite (fun _ => ?_) fun hlf => ?_
  · exact wp.ite (fun _ => fail_versionMoves _ _) fun _ => .inl ⟨rfl, fun _ _ _ h => h⟩
  have hend : lineEnd r.rx.buf < r.rx.buf.length := lt_of_le_of_ne (lineEnd_le _) hlf
  refine wp.ite (fun hssh => ?_) fun hother => ?_
  · refine wp.ite (fun _ => fail_versionMoves _ _) fun _ => ?_
    simp only [storeVersion, wp_bind, wp_onLink, LinkM.wp_update, wp_ite, wp_throw]
    refine ⟨fun _ => trivial, fun _ => wp_compact hend ?_⟩
    refine wp.imp (afterLine_steps (A := True) (E := E) fun _ => rfl) fun _ l' hsteps => .inr ?_
    refine ⟨hversion, hsteps.state_ne_version (by simp), fun more => ?_⟩
    rw [hsteps.clientVersion (by simp)]
    exact isVersionLine_firstLine hend hssh more
  · simp only [wp_bind]
    refine wp_compact hend ?_
    simp only [afterLine, wp_bind, wp_onLink, LinkM.wp_conn, wp_ite, wp_pure]
    refine ⟨fun h => ?_, fun _ => .inl ⟨rfl, fun _ line more => .of_drop hend hother⟩⟩
    rw [hversion] at h
    exact absurd h.1 (by decide)

theorem tryProcessOne_versionMoves (hr : Sound r) :
    wp (tryProcessOne E) (fun _ r' => VersionMoves r r') (fun _ => True) r := by
  simp only [tryProcessOne, tryProcessOneWith, wp_bind, wp_conn]
  refine wp.ite (fun _ => .inl ⟨rfl, fun _ _ _ h => h⟩) fun hclosed => ?_
  refine wp.ite (fun hversion => tryVersionLine_versionMoves hversion) fun hversion => ?_
  refine wp.imp (tryPacket_moves (A := True) hr hclosed hversion) fun _ r' h => ?_
  exact .of_ne_version (h.1.clientVersion hversion) (h.1.state_ne_version hversion)

/-! ## Runs -/

/-- The version line of the bytes still to come is that of `stream`, and one that was
stored is too. -/
structure VersionKept (stream : Bytes) (s : Server) : Prop where
  sound : Sound s.toReceiver
  ahead : s.link.conn.state = .version → ∀ line,
    IsVersionLine line (s.rx.buf ++ scriptBytes s.input) → IsVersionLine line stream
  stored : s.link.conn.clientVersion = [] ∨ IsVersionLine s.link.conn.clientVersion stream

theorem rd_stream (max : ℕ) :
    wp (rd max) (fun got s' => s'.toReceiver = s.toReceiver ∧
      ∀ x, got = some x → x ++ scriptBytes s'.input = scriptBytes s.input) (fun _ => True) s := by
  rcases hinput : s.input with _ | ⟨b | _, rest⟩
  · refine wp_of_run (a := some []) (t := s) (by simp only [rd, hinput]) ⟨rfl, ?_⟩
    rintro _ ⟨⟩
    rw [hinput, List.nil_append]
  · by_cases hfits : b.length ≤ max
    · refine wp_of_run (a := some b) (t := { s with input := rest })
        (by simp only [rd, hinput, if_pos hfits]) ⟨rfl, ?_⟩
      rintro _ ⟨⟩
      rfl
    · refine wp_of_run (a := some (b.take max))
        (t := { s with input := .data (b.drop max) :: rest })
        (by simp only [rd, hinput, if_neg hfits]) ⟨rfl, ?_⟩
      rintro _ ⟨⟩
      rw [scriptBytes, scriptBytes, ← List.append_assoc, List.take_append_drop]
  · exact wp_of_run (a := none) (t := { s with input := rest }) (by simp only [rd, hinput])
      ⟨rfl, fun _ h => by cases h⟩

theorem VersionKept.receive (E : Env) (h : VersionKept stream s) :
    wp receive (fun _ s' => VersionKept stream s') (fun _ => True) s := by
  suffices hkept : wp EfiSshServer.receive (fun _ s' =>
      s'.link.conn.clientVersion = s.link.conn.clientVersion ∧
        (s'.link.conn.state = .version → s.link.conn.state = .version ∧
          s'.rx.buf ++ scriptBytes s'.input = s.rx.buf ++ scriptBytes s.input))
      (fun _ => True) s by
    refine wp.imp (wp.and (receive_moves (A := True) (E := E) h.sound.header) hkept) ?_
    rintro _ s' ⟨hmoves, hversion, hstream⟩
    refine ⟨hmoves.sound h.sound, fun hstate line hline => ?_, hversion ▸ h.stored⟩
    obtain ⟨hbefore, heq⟩ := hstream hstate
    exact h.ahead hbefore line (heq ▸ hline)
  simp only [EfiSshServer.receive, wp_bind, wp_onRecv, wp_rx]
  refine wp.ite (fun _ => ?_) fun _ => ⟨rfl, fun hstate => ⟨hstate, rfl⟩⟩
  simp only [wp_bind]
  refine wp.imp (rd_stream _) fun got s₁ hread => ?_
  obtain ⟨heq, hbytes⟩ := hread
  split
  · simp only [wp_bind, ServerM.wp_onLink, LinkM.wp_update, wp_pure, heq]
    exact ⟨trivial, fun h => by cases h⟩
  · next x =>
      simp only [wp_bind, wp_onRecv, wp_setRx, wp_pure, heq]
      refine ⟨trivial, fun hstate => ⟨hstate, ?_⟩⟩
      rw [List.append_assoc, hbytes x rfl]

theorem versionKept_invariant : CallInvariant E (fun _ => True) (VersionKept stream) where
  steps := by
    intro s l' h hsteps
    refine ⟨⟨hsteps.steps.buffers h.sound.buffers, fun hlen =>
      ⟨hsteps.steps.state_ne_version (h.sound.header hlen).1, (h.sound.header hlen).2⟩⟩,
      fun hstate => ?_, ?_⟩
    · apply h.ahead
      rcases hsteps.state with heq | hclosed
      · exact heq.symm.trans hstate
      · exact absurd (hclosed.symm.trans hstate) (by decide)
    · rw [hsteps.clientVersion]
      exact h.stored
  input := by
    intro s h
    refine processInput_keeps (fun s hs => hs.receive E) (fun s hs => ?_) h
    have hmoves : wp (tryProcessOne E) (fun _ r' => Moves True E s.toReceiver r')
        (fun _ => True) s.toReceiver := tryProcessOne_moves hs.sound fun _ => trivial
    refine wp.imp (wp.and hmoves (tryProcessOne_versionMoves hs.sound)) ?_
    rintro _ r' ⟨hmoves, ⟨hversion, hstream⟩ | ⟨hbefore, hstate, hline⟩⟩
    · refine ⟨hmoves.sound hs.sound, fun hstate line hline => ?_, hversion ▸ hs.stored⟩
      exact hs.ahead (hmoves.state_version hstate) line (hstream hstate line _ hline)
    · refine ⟨hmoves.sound hs.sound, fun h => absurd h hstate, .inr ?_⟩
      exact hs.ahead hbefore _ (hline _)

/-- `clientVersion` is the version line of what the transport delivers. -/
theorem Runs.clientVersion {connSize : ℕ} {hostSeed : Bytes} {calls : List Call}
    {input : List ReadResult} (hnew : sshNew E connSize hostSeed calls input = some s₀)
    (h : Runs E s₀ s) : s.link.conn.clientVersion = [] ∨
      IsVersionLine s.link.conn.clientVersion (scriptBytes input) := by
  obtain ⟨hsession, hrx, hinput⟩ := sshNew_eq hnew
  have hconn : s₀.link.conn = newConn hostSeed (E.hostPublic hostSeed).toList :=
    congrArg Session.conn hsession
  have hkept : VersionKept (scriptBytes input) s₀ := by
    refine ⟨sshNew_sound hnew, fun _ line hline => ?_, .inl ?_⟩
    · rwa [hrx, hinput] at hline
    · rw [hconn]
      rfl
  exact (versionKept_invariant.runs h hkept).stored

end EfiSshServer
