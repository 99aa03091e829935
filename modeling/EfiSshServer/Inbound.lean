import EfiSshServer.Flow
import EfiSshServer.Arrivals

/-!
# No inbound byte is lost

For a client that keeps to the window the server granted, the bytes `SshRead` has
returned and the bytes in the ring are, in this order, the bytes of the `CHANNEL_DATA`
packets that have arrived, and every byte returned is either credited already or
counted in `consumed`.  Together these bound the ring: it never holds more than a window.

`Inbound` says this of what the handlers and `SshRead` have recorded.  The packets say the
same of what has arrived (`retell`), and `ReadRuns` of what the calls of `SshRead` return.
-/

namespace EfiSshServer

open StateProgram RingBuffer

variable {E : Env} {s t : Session} {log log' : List Event}

/-! ## What the log says -/

/-- The data of all `CHANNEL_DATA` packets. -/
def receivedBytes : List Event → Bytes
  | [] => []
  | .received d _ :: log => receivedBytes log ++ d
  | _ :: log => receivedBytes log

/-- The bytes returned by `SshRead`. -/
def poppedBytes : List Event → Bytes
  | [] => []
  | .popped d _ :: log => poppedBytes log ++ d
  | _ :: log => poppedBytes log

/-- The amount of a `WINDOW_ADJUST` packet. -/
def adjustAmount (p : Bytes) : ℕ := (getU32 (p.drop 5)).toNat

/-- The sum of the `WINDOW_ADJUST` amounts the server has sent. -/
def adjustsSent : List Event → ℕ
  | [] => 0
  | .sent p _ :: log =>
      adjustsSent log + if msgOf p = msgChannelWindowAdjust then adjustAmount p else 0
  | _ :: log => adjustsSent log

/-- At each `CHANNEL_DATA` the client has kept to its window. -/
def WindowAbiding : List Event → Prop
  | [] => True
  | .received d _ :: log =>
      (receivedBytes log).length + d.length ≤ sshLocalWindow + adjustsSent log ∧ WindowAbiding log
  | _ :: log => WindowAbiding log

instance decidableWindowAbiding : DecidablePred WindowAbiding
  | [] => .isTrue trivial
  | .received d _ :: log =>
      have := decidableWindowAbiding log
      inferInstanceAs (Decidable ((receivedBytes log).length + d.length ≤
        sshLocalWindow + adjustsSent log ∧ WindowAbiding log))
  | .sent .. :: log | .sendFailed .. :: log | .dispatch .. :: log | .auth .. :: log
  | .opened .. :: log | .adjusted .. :: log | .popped .. :: log | .readEnd .. :: log
  | .accepted :: log | .closing .. :: log | .kexInitFailed :: log
  | .versionSent _ :: log | .exchange .. :: log => decidableWindowAbiding log

/-- No data handed to `RingPush` was dropped. -/
def PushesKept : List Event → Prop
  | [] => True
  | .received d c :: log => c.inRing.drops d = false ∧ PushesKept log
  | _ :: log => PushesKept log

theorem adjustAmount_windowAdjustPayload (remoteChan consumed : UInt32) :
    adjustAmount (windowAdjustPayload remoteChan consumed) = consumed.toNat := by
  have hdrop : (windowAdjustPayload remoteChan consumed).drop 5 = putU32 consumed := by
    rfl
  rw [adjustAmount, hdrop, ← List.append_nil (putU32 consumed), getU32_putU32_append]

theorem adjustsSent_sent {p : Bytes} (hmsg : msgOf p ≠ msgChannelWindowAdjust) (c : Conn) :
    adjustsSent (.sent p c :: log) = adjustsSent log := by
  rw [adjustsSent, if_neg hmsg, Nat.add_zero]

/-! ## The invariant -/

structure Inbound (ring : Ring UInt8 sshInRing) (consumed : UInt32) (log : List Event) : Prop where
  queue : poppedBytes log ++ ring.toList = receivedBytes log
  credit : adjustsSent log + consumed.toNat = (poppedBytes log).length
  window : (receivedBytes log).length ≤ sshLocalWindow + adjustsSent log
  neverFull : PushesKept log

/-- Events that say nothing of the inbound data. -/
theorem Inbound.congr {ring : Ring UInt8 sshInRing} {consumed : UInt32}
    (h : Inbound ring consumed log) (hreceived : receivedBytes log' = receivedBytes log)
    (hpopped : poppedBytes log' = poppedBytes log) (hadjusts : adjustsSent log' = adjustsSent log)
    (hfull : PushesKept log' = PushesKept log) : Inbound ring consumed log' where
  queue := by rw [hpopped, hreceived]; exact h.queue
  credit := by rw [hadjusts, hpopped]; exact h.credit
  window := by rw [hreceived, hadjusts]; exact h.window
  neverFull := hfull ▸ h.neverFull

/-- No more than a window is in the ring and uncredited. -/
theorem Inbound.count_add_consumed_le {ring : Ring UInt8 sshInRing} {consumed : UInt32}
    (h : Inbound ring consumed log) : ring.count + consumed.toNat ≤ sshLocalWindow := by
  have hqueue := congrArg List.length h.queue
  rw [List.length_append, Ring.length_toList] at hqueue
  have hcredit := h.credit
  have hwindow := h.window
  omega

theorem Quiet.inbound (hquiet : Quiet s t)
    (h : WindowAbiding s.log → Inbound s.conn.inRing s.conn.consumed s.log)
    (habiding : WindowAbiding t.log) : Inbound t.conn.inRing t.conn.consumed t.log := by
  obtain ⟨-, -, -, -, hring, hconsumed⟩ := Flow.mk.inj hquiet.flow
  rw [hring, hconsumed]
  have hreceived : receivedBytes t.log = receivedBytes s.log := hquiet.log_eq fun e log he => by
    cases e <;> first | rfl | cases he
  have hpopped : poppedBytes t.log = poppedBytes s.log := hquiet.log_eq fun e log he => by
    cases e <;> first | rfl | cases he
  have hadjusts : adjustsSent t.log = adjustsSent s.log := hquiet.log_eq fun e log he => by
    cases e with
    | sent p c =>
        refine adjustsSent_sent (fun hmsg => ?_) c
        rw [Event.isQuiet, hmsg] at he
        exact absurd he (by decide)
    | _ => rfl
  have hwindow : WindowAbiding t.log = WindowAbiding s.log := hquiet.log_eq fun e log he => by
    cases e <;> first | rfl | cases he
  refine (h (hwindow ▸ habiding)).congr hreceived hpopped hadjusts ?_
  exact hquiet.log_eq fun e log he => by cases e <;> first | rfl | cases he

/-- A packet that is no `WINDOW_ADJUST`. -/
theorem Inbound.sent {p : Bytes} {c : Conn} {ring : Ring UInt8 sshInRing} {consumed : UInt32}
    (h : Inbound ring consumed log) (hmsg : msgOf p ≠ msgChannelWindowAdjust) :
    Inbound ring consumed (.sent p c :: log) :=
  h.congr rfl rfl (adjustsSent_sent hmsg c) rfl

/-- The data of a client that keeps to its window fits into the ring. -/
theorem Inbound.received {ring : Ring UInt8 sshInRing} {consumed : UInt32} {d : Bytes} {c : Conn}
    (h : Inbound ring consumed log) (hring : c.inRing = ring)
    (habiding : WindowAbiding (.received d c :: log)) :
    Inbound (ring.pushAll d) consumed (.received d c :: log) := by
  have hqueue := congrArg List.length h.queue
  rw [List.length_append, Ring.length_toList] at hqueue
  have hcredit := h.credit
  have hfits : ring.count + d.length < sshInRing := by
    have hwindow := habiding.1
    simp only [sshLocalWindow, sshInRing] at hwindow ⊢
    omega
  refine ⟨?_, h.credit, ?_, ?_, h.neverFull⟩
  · show poppedBytes log ++ _ = receivedBytes log ++ d
    rw [Ring.toList_pushAll_of_fits _ _ hfits, ← h.queue, List.append_assoc]
  · show (receivedBytes log ++ d).length ≤ _
    rw [List.length_append]
    exact habiding.1
  · rw [hring]
    exact Ring.drops_of_fits _ _ hfits

/-- What is taken off the ring counts as consumed. -/
theorem Inbound.popped {ring : Ring UInt8 sshInRing} {consumed : UInt32} {c : Conn} (max : ℕ)
    (h : Inbound ring consumed log) :
    Inbound (ring.popUpTo max).2 (consumed + UInt32.ofNat (ring.popUpTo max).1.length)
      (.popped (ring.popUpTo max).1 c :: log) := by
  have hsplit := ring.popUpTo_append max
  have hlength := congrArg List.length hsplit
  rw [List.length_append, Ring.length_toList] at hlength
  have hbound := h.count_add_consumed_le
  have hsum : (consumed + UInt32.ofNat (ring.popUpTo max).1.length).toNat =
      consumed.toNat + (ring.popUpTo max).1.length := by
    simp only [sshLocalWindow] at hbound
    rw [UInt32.toNat_add, UInt32.toNat_ofNat', Nat.mod_eq_of_lt (b := 2 ^ 32) (by omega),
      Nat.mod_eq_of_lt (by omega)]
  refine ⟨?_, ?_, h.window, h.neverFull⟩
  · show (poppedBytes log ++ _) ++ _ = receivedBytes log
    rw [List.append_assoc, ← hsplit]
    exact h.queue
  · show adjustsSent log + _ = (poppedBytes log ++ _).length
    rw [hsum, List.length_append, ← Nat.add_assoc, h.credit]

/-- A `WINDOW_ADJUST` credits what was consumed. -/
theorem Inbound.credited {ring : Ring UInt8 sshInRing} {consumed remoteChan : UInt32} {c : Conn}
    (h : Inbound ring consumed log) :
    Inbound ring 0 (.sent (windowAdjustPayload remoteChan consumed) c :: log) := by
  have hadjusts : adjustsSent (.sent (windowAdjustPayload remoteChan consumed) c :: log) =
      adjustsSent log + consumed.toNat := by
    rw [adjustsSent, if_pos (msgOf_windowAdjustPayload _ _), adjustAmount_windowAdjustPayload]
  refine ⟨h.queue, ?_, ?_, h.neverFull⟩
  · rw [hadjusts]
    exact h.credit
  · show (receivedBytes log).length ≤ _
    rw [hadjusts]
    have hwindow := h.window
    omega

theorem FlowStep.inbound (hstep : FlowStep s t)
    (h : WindowAbiding s.log → Inbound s.conn.inRing s.conn.consumed s.log) :
    WindowAbiding t.log → Inbound t.conn.inRing t.conn.consumed t.log := by
  have hfields : ∀ {f : Flow}, t.conn.flow = f → t.conn.inRing = f.inRing ∧
      t.conn.consumed = f.consumed := by
    rintro f rfl
    exact ⟨rfl, rfl⟩
  cases hstep with
  | quiet hquiet => exact hquiet.inbound h
  | received d _ hflow hlog =>
      rw [hlog, (hfields hflow).1, (hfields hflow).2]
      exact fun habiding => (h habiding.2).received rfl habiding
  -- the bytes go from the ring to those returned
  | popped max _ hflow hlog =>
      rw [hlog, (hfields hflow).1, (hfields hflow).2]
      exact fun habiding => (h habiding).popped max
  | credited max _ hflow hlog =>
      obtain ⟨c, hlog⟩ := hlog
      rw [hlog, (hfields hflow).1, (hfields hflow).2]
      exact fun habiding => ((h habiding).popped max).credited
  -- a credit that failed to go out is still counted as consumed
  | creditLost max _ hflow hlog =>
      obtain ⟨p, c, hlog⟩ := hlog
      rw [hlog, (hfields hflow).1, (hfields hflow).2]
      exact fun habiding => ((h habiding).popped (c := s.conn) max).congr rfl rfl rfl rfl
  | opened _ _ _ hflow hlog | adjusted _ hflow hlog | readEnd _ hflow hlog =>
      rw [hlog, (hfields hflow).1, (hfields hflow).2]
      exact fun habiding => (h habiding).congr rfl rfl rfl rfl
  | wrote d _ _ _ hflow hlog =>
      rw [hlog, (hfields hflow).1, (hfields hflow).2]
      exact fun habiding => (h habiding).sent (by simp; decide)
  | answered ok _ _ _ hflow hlog =>
      rw [hlog, (hfields hflow).1, (hfields hflow).2]
      exact fun habiding => (h habiding).sent (by cases ok <;> simp <;> decide)
  | farewell _ hmsg hflow hlog =>
      rw [hlog, (hfields hflow).1, (hfields hflow).2]
      refine fun habiding => (h habiding).sent ?_
      rcases hmsg with hmsg | hmsg <;> rw [hmsg] <;> decide
  | closed _ _ hflow hlog =>
      obtain ⟨p, hmsg, ⟨c, hlog⟩ | ⟨c, hlog⟩⟩ := hlog <;>
        rw [hlog, (hfields hflow).1, (hfields hflow).2]
      · exact fun habiding => (h habiding).sent (by rw [hmsg]; decide)
      · exact fun habiding => (h habiding).congr rfl rfl rfl rfl

/-! ## What has arrived -/

/-- The data of all `CHANNEL_DATA` packets that have arrived. -/
def dataArrived : List Event → Bytes
  | [] => []
  | .dispatch p _ _ c :: log => dataArrived log ++ (c.dataOf p).getD []
  | _ :: log => dataArrived log

/-- Each `CHANNEL_DATA` that has arrived is within the window: all data so far is at most
what the server has granted by then. -/
def KeepsToWindow : List Event → Prop
  | [] => True
  | .dispatch p _ _ c :: log => (∀ d ∈ c.dataOf p,
      (dataArrived log).length + d.length ≤ sshLocalWindow + adjustsSent log) ∧ KeepsToWindow log
  | _ :: log => KeepsToWindow log

instance decidableKeepsToWindow : DecidablePred KeepsToWindow
  | [] => .isTrue trivial
  | .dispatch p _ _ c :: log =>
      have := decidableKeepsToWindow log
      inferInstanceAs (Decidable ((∀ d ∈ c.dataOf p, (dataArrived log).length + d.length ≤
        sshLocalWindow + adjustsSent log) ∧ KeepsToWindow log))
  | .sent .. :: log | .sendFailed .. :: log | .received .. :: log | .auth .. :: log
  | .opened .. :: log | .adjusted .. :: log | .popped .. :: log | .readEnd .. :: log
  | .accepted :: log | .closing .. :: log | .kexInitFailed :: log
  | .versionSent _ :: log | .exchange .. :: log => decidableKeepsToWindow log

/-- `RingPush` never takes its full-ring branch: not for one byte of any `CHANNEL_DATA`, on
the ring that its packet finds. -/
def RingNeverFull : List Event → Prop
  | [] => True
  | .dispatch p _ _ c :: log => (∀ d ∈ c.dataOf p, c.inRing.drops d = false) ∧ RingNeverFull log
  | _ :: log => RingNeverFull log

theorem adjustsSent_retell (log : List Event) : adjustsSent (retell log) = adjustsSent log := by
  induction log with
  | nil => rfl
  | cons e log ih =>
      cases e with
      | dispatch p packet mac c =>
          obtain ⟨_, -, -, -, h⟩ | ⟨_, -, -, -, h⟩ | ⟨_, _, -, -, -, h⟩ | ⟨-, -, -, h⟩ :=
            c.bringing p <;> rw [retell, h] <;> exact ih
      | sent p c =>
          rw [retell_aside rfl, adjustsSent, adjustsSent, ih]
      | _ => exact ih

theorem receivedBytes_retell (log : List Event) : receivedBytes (retell log) = dataArrived log := by
  induction log with
  | nil => rfl
  | cons e log ih =>
      cases e with
      | dispatch p packet mac c =>
          obtain ⟨d, hdata, -, -, h⟩ | ⟨_, hdata, -, -, h⟩ | ⟨_, _, hdata, -, -, h⟩ |
            ⟨hdata, -, -, h⟩ := c.bringing p <;> rw [retell, h, dataArrived, hdata, ← ih]
          · rfl
          all_goals exact (List.append_nil _).symm
      | _ => exact ih

theorem windowAbiding_retell (log : List Event) :
    WindowAbiding (retell log) ↔ KeepsToWindow log := by
  induction log with
  | nil => exact Iff.rfl
  | cons e log ih =>
      cases e with
      | dispatch p packet mac c =>
          obtain ⟨d, hdata, -, -, h⟩ | ⟨_, hdata, -, -, h⟩ | ⟨_, _, hdata, -, -, h⟩ |
            ⟨hdata, -, -, h⟩ := c.bringing p <;> rw [retell, h, KeepsToWindow, hdata, ← ih]
          · rw [← receivedBytes_retell, ← adjustsSent_retell]
            simp [WindowAbiding, receivedBytes, adjustsSent]
          all_goals simp [WindowAbiding]
      | _ => exact ih

theorem pushesKept_retell (log : List Event) : PushesKept (retell log) ↔ RingNeverFull log := by
  induction log with
  | nil => exact Iff.rfl
  | cons e log ih =>
      cases e with
      | dispatch p packet mac c =>
          obtain ⟨d, hdata, -, -, h⟩ | ⟨_, hdata, -, -, h⟩ | ⟨_, _, hdata, -, -, h⟩ |
            ⟨hdata, -, -, h⟩ := c.bringing p <;>
            simp [retell, h, RingNeverFull, PushesKept, hdata, ih]
      | _ => exact ih

/-! ## What `SshRead` returns -/

/-- The runs of a server, with the bytes that the calls of `SshRead` have returned. -/
inductive ReadRuns (E : Env) (s₀ : Server) : Bytes → Server → Prop
  | none : ReadRuns E s₀ [] s₀
  | read {bytes out : Bytes} {s t : Server} {max : ℕ} {ret : Int} (h : ReadRuns E s₀ bytes s)
      (hread : sshRead E max s = .ok ((ret, out), t)) : ReadRuns E s₀ (bytes ++ out) t
  | call {bytes : Bytes} {s t : Server} {call : ApiCall} (h : ReadRuns E s₀ bytes s)
      (hcall : call.isUnread = true) (hrun : runCall E call s = .ok ((), t)) :
      ReadRuns E s₀ bytes t

theorem sshRead_call {max : ℕ} {s t : Server} {out : Int × Bytes}
    (h : sshRead E max s = .ok (out, t)) : runCall E (.read max) s = .ok ((), t) := by
  simp only [runCall, bind, StateT.bind, Except.bind, h]
  rfl

theorem ReadRuns.runs {s₀ s : Server} {bytes : Bytes} (h : ReadRuns E s₀ bytes s) :
    Runs E s₀ s := by
  induction h with
  | none => exact .none
  | read _ hread ih => exact ih.call _ (sshRead_call hread)
  | call _ _ hrun ih => exact ih.call _ hrun

theorem Emits.poppedBytes {p : Bytes} {r : Int} (h : Emits p s r t) :
    poppedBytes t.log = EfiSshServer.poppedBytes s.log := by
  rcases h.log_eq with ⟨-, hlog⟩ | ⟨-, hlog⟩ <;> rw [hlog] <;> rfl

theorem returnCredit_poppedBytes (l : Link) :
    wp (returnCredit E) (fun _ l' => poppedBytes l'.log = poppedBytes l.log) anyFault l := by
  simp only [returnCredit, wp_bind, LinkM.wp_conn]
  refine wp.ite (fun _ => ?_) fun _ => rfl
  simp only [wp_bind]
  refine wp.imp (sendPacket_emits E _ l _) fun ret l' hemit => ?_
  exact wp.ite (fun _ => hemit.poppedBytes) fun _ => hemit.poppedBytes

/-- The bytes in the caller's buffer are the bytes taken off the ring, and a negative result
leaves it empty. -/
theorem takeInput_returns (max : ℕ) (l : Link) :
    wp (takeInput E max) (fun out l' => poppedBytes l'.log = poppedBytes l.log ++ out.2 ∧
      (out.1 < 0 → out.2 = [] ∧ ringEmpty l'.conn = true)) anyFault l := by
  simp only [takeInput, wp_bind, LinkM.wp_conn]
  refine wp.ite (fun hempty => ?_) fun _ => ?_
  · exact wp.ite (fun _ => ⟨(List.append_nil _).symm, fun _ => ⟨rfl, hempty⟩⟩) fun _ =>
      ⟨(List.append_nil _).symm, fun h => absurd h (by decide)⟩
  · simp only [wp_bind, LinkM.wp_record, LinkM.wp_update, wp_pure]
    refine wp.imp (returnCredit_poppedBytes _) fun _ l' hpopped => ⟨hpopped, fun h => ?_⟩
    exact absurd h (Int.not_lt.mpr (Int.natCast_nonneg _))

/-- Nothing but `SshRead` takes bytes off the ring. -/
theorem popped_unreadInvariant (bytes : Bytes) :
    UnreadInvariant E anyFault fun s => poppedBytes s.link.log = bytes := by
  have hkeeps : ∀ {e : Event} {log : List Event}, e.isTaken = false →
      poppedBytes log = bytes → poppedBytes (e :: log) = bytes := fun he h => by
    cases ‹Event› with
    | popped => cases he
    | _ => exact h
  have hhandler : HandlerInvariant E (fun e => e.isTaken = false)
      (fun l => poppedBytes l.log = bytes) :=
    handlerInvariant_of_log (J := fun log => poppedBytes log = bytes) hkeeps (fun _ _ => rfl)
      fun _ _ => rfl
  have hserve : ServeInvariant E fun l => poppedBytes l.log = bytes := {
    update hl _ := hl
    ask hl _ := hl
    record hl he := hkeeps (by cases ‹Event› <;> first | rfl | cases he) hl
    send {p} hmsg := hhandler.send fun heq => by
      rw [heq] at hmsg
      exact absurd hmsg (by decide)
    version := sendVersion_keeps_log (J := fun log => poppedBytes log = bytes) fun h => h
    dispatch payload packet mac l hl := by
      simp only [dispatch, wp_bind, LinkM.wp_update, LinkM.wp_record]
      refine hhandler.handlePacket (fun e he => ?_) (fun e he => ?_) _ (hkeeps rfl hl)
      · cases e <;> first | rfl | cases he
      · cases e <;> first | rfl | cases he }
  exact hserve.unreadInvariant

/-- What `SshRead` returns comes behind what it has returned before. -/
theorem sshRead_returns {max : ℕ} {s t : Server} {ret : Int} {out : Bytes}
    (h : sshRead E max s = .ok ((ret, out), t)) :
    poppedBytes t.link.log = poppedBytes s.link.log ++ out ∧
      (ret < 0 → out = [] ∧ ringEmpty t.link.conn = true) := by
  have hread : wp (sshRead E max) (fun out t => poppedBytes t.link.log =
      poppedBytes s.link.log ++ out.2 ∧ (out.1 < 0 → out.2 = [] ∧ ringEmpty t.link.conn = true))
      anyFault s := by
    simp only [sshRead, wp_bind]
    refine wp.imp ((popped_unreadInvariant _).input rfl) fun _ s₁ hinput => ?_
    rw [ServerM.wp_onLink]
    refine wp.imp (takeInput_returns max s₁.link) fun out l' htaken => ?_
    rw [← hinput]
    exact htaken
  exact hread.ok h

theorem ReadRuns.poppedBytes {s₀ s : Server} {bytes : Bytes} (h : ReadRuns E s₀ bytes s)
    (hnew : s₀.link.log = []) : poppedBytes s.link.log = bytes := by
  induction h with
  | none => rw [hnew]; rfl
  | read _ hread ih => rw [(sshRead_returns hread).1, ih]
  | call _ hcall hrun ih => exact ((popped_unreadInvariant _).runCall hcall ih).ok hrun

/-! ## The result -/

theorem Reachable.inbound {s : Server} (h : Reachable E s) (habiding : WindowAbiding s.link.log) :
    Inbound s.link.conn.inRing s.link.conn.consumed s.link.log := by
  refine h.flow_invariant
    (I := fun s => WindowAbiding s.log → Inbound s.conn.inRing s.conn.consumed s.log)
    (fun hostSeed hostPub _ => ⟨?_, rfl, Nat.zero_le _, trivial⟩)
    (fun s t hstep => hstep.inbound) habiding
  rw [(Ring.isEmpty_iff_toList _).mp (ringEmpty_newConn hostSeed hostPub)]
  rfl

/-- The invariant, of the data that has arrived. -/
theorem Reachable.inbound_arrived {s : Server} (h : Reachable E s)
    (habiding : KeepsToWindow s.link.log) :
    RingNeverFull s.link.log ∧
      poppedBytes s.link.log ++ s.link.conn.inRing.toList = dataArrived s.link.log ∧
      adjustsSent s.link.log + s.link.conn.consumed.toNat = (poppedBytes s.link.log).length := by
  have hretell := h.retell_eq
  have hinbound := h.inbound (by rwa [← hretell, windowAbiding_retell])
  refine ⟨?_, ?_, hinbound.credit⟩
  · rw [← pushesKept_retell, hretell]
    exact hinbound.neverFull
  · rw [← receivedBytes_retell, hretell]
    exact hinbound.queue

/-- While the client keeps to its window, no inbound byte is lost, duplicated or
reordered between its packets and what `SshRead` returns, every byte returned is credited
or still counted as consumed, and `SshRead` does not return -1 ahead of data. -/
theorem no_inbound_byte_lost {connSize : ℕ} {hostSeed : Bytes} {calls : List Call}
    {input : List ReadResult} {s₀ s : Server} {bytes : Bytes}
    (hnew : sshNew E connSize hostSeed calls input = some s₀) (h : ReadRuns E s₀ bytes s)
    (habiding : KeepsToWindow s.link.log) :
    RingNeverFull s.link.log ∧
      bytes ++ s.link.conn.inRing.toList = dataArrived s.link.log ∧
      adjustsSent s.link.log + s.link.conn.consumed.toNat = bytes.length ∧
      ∀ max ret out t, sshRead E max s = .ok ((ret, out), t) → ret < 0 →
        KeepsToWindow t.link.log → out = [] ∧ bytes = dataArrived t.link.log := by
  have hlog : s₀.link.log = [] := congrArg Session.log (sshNew_eq hnew).1
  have hreach : ∀ {bytes t}, ReadRuns E s₀ bytes t → Reachable E t := fun h =>
    ⟨_, _, _, _, s₀, hnew, h.runs⟩
  obtain ⟨hfull, hqueue, hcredit⟩ := (hreach h).inbound_arrived habiding
  rw [h.poppedBytes hlog] at hqueue hcredit
  refine ⟨hfull, hqueue, hcredit, fun max ret out t hread hret habiding' => ?_⟩
  have ht := h.read hread
  obtain ⟨-, hqueue', -⟩ := (hreach ht).inbound_arrived habiding'
  obtain ⟨hout, hempty⟩ := (sshRead_returns hread).2 hret
  rw [ht.poppedBytes hlog, (Ring.isEmpty_iff_toList _).mp hempty, hout, List.append_nil,
    List.append_nil] at hqueue'
  exact ⟨hout, hqueue'⟩

/-- A client sends some data and its end-of-file; a part is read, the rest, and the end. -/
theorem no_inbound_byte_lost_read : ∃ s₀ s t u : Server, ∃ ret : Int,
    ReadRuns (plainEnv fun _ _ => true) s₀ (ascii "ls") s ∧
      ascii "ls" ++ s.link.conn.inRing.toList = dataArrived s.link.log ∧
      s.link.conn.inRing.toList = ascii " -l" ∧
      ReadRuns (plainEnv fun _ _ => true) s₀ (ascii "ls -l") t ∧
      sshRead (plainEnv fun _ _ => true) 100 t = .ok ((ret, []), u) ∧ ret < 0 ∧
      ascii "ls -l" = dataArrived u.link.log := by
  have hrun : (sshNew (plainEnv fun _ _ => true) 0 [] [] [.data (clientLogin "root" "secret" ++
      sealedFrame (clientData (ascii "ls -l")) ++
      sealedFrame (channelReplyPayload msgChannelEof 0))]).any (fun s₀ =>
    (sshRead (plainEnv fun _ _ => true) 2 s₀).toOption.any fun first =>
      decide (first.1 = (2, ascii "ls") ∧ KeepsToWindow first.2.link.log ∧
        first.2.link.conn.inRing.toList = ascii " -l" ∧
        (sshRead (plainEnv fun _ _ => true) 100 first.2).toOption.any (fun second =>
          decide (second.1 = (3, ascii " -l") ∧ KeepsToWindow second.2.link.log ∧
            (sshRead (plainEnv fun _ _ => true) 100 second.2).toOption.any (fun last =>
              decide (last.1.1 < 0 ∧ KeepsToWindow last.2.link.log)) = true)) = true)) = true := by
    decide +kernel
  obtain ⟨s₀, hnew, hreads⟩ := Option.any_eq_true _ _ |>.mp hrun
  obtain ⟨⟨_, s⟩, hs, rfl, habiding, hring, hreads⟩ := exists_ok hreads
  obtain ⟨⟨_, t⟩, ht, rfl, habiding', hreads⟩ := exists_ok hreads
  obtain ⟨⟨⟨ret, out⟩, u⟩, hu, hend, habiding''⟩ := exists_ok hreads
  have hpart : ReadRuns _ s₀ (ascii "ls") s := .read .none hs
  have hwhole : ReadRuns _ s₀ (ascii "ls -l") t := .read hpart ht
  obtain ⟨-, hqueue, -, -⟩ := no_inbound_byte_lost hnew hpart habiding
  obtain ⟨-, -, -, hdrained⟩ := no_inbound_byte_lost hnew hwhole habiding'
  obtain ⟨rfl, harrived⟩ := hdrained 100 ret out u hu hend habiding''
  exact ⟨s₀, s, t, u, ret, hpart, hqueue, hring, hwhole, hu, hend, harrived⟩

end EfiSshServer
