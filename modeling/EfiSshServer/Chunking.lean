import EfiSshServer.Decoding

/-!
# Chunking independence

However the transport cuts the client's bytes into reads, `ProcessInput` ends
where decoding all of them at once ends.
-/

namespace EfiSshServer

open StateProgram RecvM IncrementalDecoder

variable {E : Env} {r r' : Receiver}

/-! ## The decoder of a connection past its version exchange -/

theorem tryProcessOneWith_eq {handle : Bytes → LinkM Int} (hopen : r.link.conn.state ≠ .closed)
    (hversion : r.link.conn.state ≠ .version) :
    tryProcessOneWith E handle r = tryPacket E handle r := by
  show (if r.link.conn.state = .closed then pure (-1)
    else if r.link.conn.state = .version then tryVersionLine E else tryPacket E handle : RecvM Int)
    r = _
  rw [if_neg hopen, if_neg hversion]

theorem tryProcessOne_eq (hopen : r.link.conn.state ≠ .closed)
    (hversion : r.link.conn.state ≠ .version) :
    tryProcessOne E r = tryPacket E (handlePacket E) r :=
  tryProcessOneWith_eq hopen hversion

/-- One call of `TryProcessOne`: whether it got on, and where to. -/
def attempt (E : Env) (r : Receiver) : Except Fault (Bool × Receiver) :=
  (tryProcessOne E r).map fun out => (decide (out.1 ≠ 0), out.2)

theorem attempt_eq_ok {b : Bool} : attempt E r = .ok (b, r') ↔
    ∃ ret, tryProcessOne E r = .ok (ret, r') ∧ b = decide (ret ≠ 0) := by
  unfold attempt
  cases tryProcessOne E r with
  | error e => simp [Except.map]
  | ok out =>
      simp only [Except.map, Except.ok.injEq, Prod.mk.injEq]
      constructor
      · rintro ⟨hb, rfl⟩
        exact ⟨out.1, rfl, hb.symm⟩
      · rintro ⟨ret, rfl, hb⟩
        exact ⟨hb.symm, rfl⟩

/-- Between two packets or inside one, past the version exchange. -/
def Decoding (r : Receiver) : Prop := Sound r ∧ r.link.conn.state ≠ .version

theorem Decoding.feed (hr : Decoding r) (y : Bytes) : Decoding (r.feed y) := by
  refine ⟨⟨hr.1.buffers, fun hlen => ?_⟩, hr.2⟩
  obtain ⟨hstate, hfive, hmax, hfour⟩ := hr.1.header hlen
  refine ⟨hstate, hfive, hmax, ?_⟩
  rw [Receiver.feed_buf, List.length_append]
  omega

/-- Past the version exchange `TryProcessOne` never faults, and stays there. -/
theorem Decoding.returns (hr : Decoding r) :
    ∃ ret r', tryProcessOne E r = .ok (ret, r') ∧ Moves True E r r' ∧ Decoding r' := by
  have hmoves : wp (tryProcessOne E) (fun _ r' => Moves True E r r') (fun _ => False) r := by
    simp only [tryProcessOne, tryProcessOneWith, wp_bind, wp_conn]
    refine wp.ite (fun _ => .refl hr.1.header) fun hclosed => ?_
    refine wp.ite (fun hstate => absurd hstate hr.2) fun hstate => ?_
    exact tryPacket_moves hr.1 hclosed hstate
  obtain ⟨ret, r', hrun, h⟩ := hmoves.returns
  exact ⟨ret, r', hrun, h, h.sound hr.1, h.1.state_ne_version hr.2⟩

theorem Decoding.of_run (hr : Decoding r) {ret : Int} (hrun : tryProcessOne E r = .ok (ret, r')) :
    Decoding r' := by
  obtain ⟨ret', r'', hrun', -, hdec⟩ := hr.returns (E := E)
  rw [hrun] at hrun'
  cases hrun'
  exact hdec

/-- A call that got on, and one that asks for more, in terms of `tryPacket`. -/
theorem Decoding.attempt_eq_ok (hr : Decoding r) (hopen : r.link.conn.state ≠ .closed) {b : Bool} :
    attempt E r = .ok (b, r') ↔
      ∃ ret, tryPacket E (handlePacket E) r = .ok (ret, r') ∧ b = decide (ret ≠ 0) := by
  rw [EfiSshServer.attempt_eq_ok, tryProcessOne_eq hopen hr.2]

theorem attempt_feed (hr : Decoding r) (hopen : r.link.conn.state ≠ .closed)
    (hstep : attempt E r = .ok (true, r')) (y : Bytes) :
    attempt E (r.feed y) = .ok (true, r'.feed y) := by
  obtain ⟨ret, hrun, hret⟩ := (hr.attempt_eq_ok hopen).mp hstep
  refine ((hr.feed y).attempt_eq_ok hopen).mpr ⟨ret, ?_, hret⟩
  exact tryPacket_feed hrun (of_decide_eq_true hret.symm) y

theorem attempt_resume (hr : Decoding r) (hopen : r.link.conn.state ≠ .closed)
    (hstep : attempt E r = .ok (false, r')) (y : Bytes) :
    attempt E (r.feed y) = attempt E (r'.feed y) ∧
      r'.link.conn.state = r.link.conn.state ∧ r'.rx.buf.length = r.rx.buf.length := by
  obtain ⟨ret, hrun, hret⟩ := (hr.attempt_eq_ok hopen).mp hstep
  obtain rfl : ret = 0 := by simpa using hret
  obtain ⟨hsame, hstate, hlength⟩ := tryPacket_resume hrun y
  refine ⟨?_, hstate, hlength⟩
  unfold attempt
  rw [tryProcessOne_eq (r := r.feed y) hopen hr.2,
    tryProcessOne_eq (r := r'.feed y) (hstate ▸ hopen) (hstate ▸ hr.2), hsame]

theorem attempt_progress (hr : Decoding r) (hopen : r.link.conn.state ≠ .closed)
    (hstep : attempt E r = .ok (true, r')) : ∃ ret, Progress r ret r' := by
  obtain ⟨ret, hrun, hret⟩ := (hr.attempt_eq_ok hopen).mp hstep
  exact ⟨ret, tryPacket_progress hrun (of_decide_eq_true hret.symm)⟩

/-- `TryProcessOne` as an incremental decoder. -/
def packetDecoder (E : Env) : IncrementalDecoder.Decoder Fault Receiver UInt8 where
  valid := Decoding
  stopped r := r.link.conn.state = .closed
  feed := Receiver.feed
  size r := r.rx.buf.length
  step := attempt E
  valid_feed y hr := hr.feed y
  valid_step hr hstep := by
    obtain ⟨ret, hrun, -⟩ := attempt_eq_ok.mp hstep
    exact hr.of_run hrun
  stopped_feed _ _ := rfl
  size_feed y r := by rw [Receiver.feed_buf, List.length_append]
  step_progress y hr hopen hstep := attempt_feed hr (of_decide_eq_false hopen) hstep y
  step_wait y hr hopen hstep := (attempt_resume hr (of_decide_eq_false hopen) hstep y).1
  stopped_wait hr hopen hstep := by
    rw [(attempt_resume hr (of_decide_eq_false hopen) hstep []).2.1]
    exact hopen
  size_progress hr hopen hstep := by
    obtain ⟨ret, hprogress⟩ := attempt_progress hr (of_decide_eq_false hopen) hstep
    exact hprogress.closed_or_shorter.imp_left decide_eq_true

/-! ## The driver -/

variable {s s' : Server}

/-- No read reports the loss of the connection. -/
def Intact (input : List ReadResult) : Prop := ReadResult.lost ∉ input

/-- Where decoding everything that is still to come leads. -/
def Server.outcome (E : Env) (s : Server) : Except Fault Receiver :=
  (packetDecoder E).run (s.toReceiver.feed (scriptBytes s.input))

/-- How much there is left to do: a byte is read once and processed once. -/
def Server.left (s : Server) : ℕ :=
  2 * (scriptBytes s.input).length + s.input.length + s.rx.buf.length

/-- What every part of `ProcessInput` keeps. -/
structure Onward (E : Env) (s s' : Server) : Prop where
  outcome : s'.outcome E = s.outcome E
  decoding : Decoding s'.toReceiver
  intact : Intact s'.input

theorem Onward.trans {s'' : Server} (h : Onward E s s') (h' : Onward E s' s'') : Onward E s s'' :=
  ⟨h'.outcome.trans h.outcome, h'.decoding, h'.intact⟩

/-- A read moves bytes from the script to the buffer. -/
structure Received (E : Env) (s : Server) (got : Bool) (s' : Server) : Prop where
  onward : Onward E s s'
  link : s'.link = s.link
  left : got = true → s'.left < s.left
  idle : got = false → s'.rx = s.rx ∧
    (s'.left < s.left ∨ (s.input = [] ∧ s' = s) ∨ (sshRxBuf ≤ s.rx.buf.length ∧ s' = s))

theorem Received.left_le {got : Bool} (h : Received E s got s') : s'.left ≤ s.left := by
  cases hgot : got with
  | true => exact (h.left hgot).le
  | false =>
      obtain ⟨-, hlt | ⟨-, heq⟩ | ⟨-, heq⟩⟩ := h.idle hgot
      · exact hlt.le
      · exact heq ▸ le_rfl
      · exact heq ▸ le_rfl

/-- A read that puts the next bytes of the script, `b`, behind the buffer. -/
theorem received_data (hs : Decoding s.toReceiver) {b : Bytes} {rest : List ReadResult}
    (hbytes : scriptBytes s.input = b ++ scriptBytes rest) (hintact : Intact rest) :
    Onward E s { s with toReceiver := s.toReceiver.feed b, input := rest } where
  outcome := by
    unfold Server.outcome
    rw [Receiver.feed_feed, hbytes]
  decoding := hs.feed b
  intact := hintact

/-- A read of the script without a loss, with room in the buffer. -/
theorem rd_cases {max : ℕ} (hmax : 0 < max) (hintact : Intact s.input) :
    (s.input = [] ∧ rd max s = .ok (some [], s)) ∨
      ∃ b rest, rd max s = .ok (some b, { s with input := rest }) ∧ Intact rest ∧
        scriptBytes s.input = b ++ scriptBytes rest ∧
        b.length + rest.length < 2 * b.length + s.input.length := by
  rcases hinput : s.input with _ | ⟨b | _, rest⟩
  · exact .inl ⟨rfl, by simp only [rd, hinput]⟩
  · rw [hinput] at hintact
    have hrest : Intact rest := fun h => hintact (List.mem_cons_of_mem _ h)
    by_cases hfits : b.length ≤ max
    · refine .inr ⟨b, rest, by simp only [rd, hinput, if_pos hfits], hrest, rfl, ?_⟩
      rw [List.length_cons]
      omega
    · refine .inr ⟨b.take max, .data (b.drop max) :: rest,
        by simp only [rd, hinput, if_neg hfits], ?_, ?_, ?_⟩
      · simpa [Intact] using hrest
      · rw [scriptBytes, scriptBytes, ← List.append_assoc, List.take_append_drop]
      · simp only [List.length_cons, List.length_take]
        omega
  · exact absurd (hinput ▸ List.mem_cons_self) hintact

theorem receive_spec (hs : Decoding s.toReceiver) (hintact : Intact s.input) :
    wp receive (fun out s' => ∃ got, out = some got ∧ Received E s got s') (fun _ => False) s := by
  simp only [receive, wp_bind, wp_onRecv, wp_rx]
  refine wp.ite (fun hroom => ?_) fun hfull => ?_
  · simp only [wp_bind]
    obtain ⟨hnil, hrd⟩ | ⟨b, rest, hrd, hrest, hbytes, hlt⟩ :=
      rd_cases (Nat.sub_pos_of_lt hroom) hintact
    · refine wp_of_run hrd ?_
      simp only [wp_bind, wp_onRecv, wp_setRx, wp_pure, List.append_nil]
      refine ⟨false, rfl, ⟨⟨rfl, hs, hintact⟩, rfl, by simp, fun _ => ?_⟩⟩
      exact ⟨rfl, .inr (.inl ⟨hnil, rfl⟩)⟩
    · refine wp_of_run hrd ?_
      simp only [wp_bind, wp_onRecv, wp_setRx, wp_pure]
      have hleft : Server.left { s with toReceiver := s.toReceiver.feed b, input := rest } <
          s.left := by
        simp only [Server.left, Receiver.feed_buf, hbytes, List.length_append]
        omega
      refine ⟨decide (b ≠ []), rfl, ⟨received_data hs hbytes hrest, rfl, fun _ => hleft, ?_⟩⟩
      intro hidle
      obtain rfl : b = [] := by simpa using hidle
      exact ⟨by simp, .inl hleft⟩
  · refine ⟨false, rfl, ⟨⟨rfl, hs, hintact⟩, rfl, by simp, fun _ => ?_⟩⟩
    exact ⟨rfl, .inr (.inr ⟨Nat.not_lt.mp hfull, rfl⟩)⟩

/-- What `processAll` does: nothing further can be done with the buffer when it is
through. -/
structure Processed (E : Env) (x : Bytes) (any : Bool) (r : Receiver) (out : Option Bool)
    (r' : Receiver) : Prop where
  run : (packetDecoder E).run (r'.feed x) = (packetDecoder E).run (r.feed x)
  decoding : Decoding r'
  interrupted : out = none → r'.link.conn.state = .closed ∨ r'.rx.buf.length < r.rx.buf.length
  finished : ∀ b, out = some b → attempt E r' = .ok (false, r') ∧
    r'.rx.buf.length ≤ r.rx.buf.length ∧ r'.rx.buf.length < sshRxBuf ∧
    (b = true → any = true ∨ r'.rx.buf.length < r.rx.buf.length) ∧
    (b = false → any = false ∧ r'.rx.buf.length = r.rx.buf.length)

theorem processAll_spec (x : Bytes) {rounds : ℕ} (any : Bool) (hr : Decoding r)
    (hopen : r.link.conn.state ≠ .closed) (hrounds : r.rx.buf.length < rounds) :
    wp (processAll E rounds any) (Processed E x any r) (fun _ => False) r := by
  induction rounds generalizing r any with
  | zero => exact absurd hrounds (Nat.not_lt_zero _)
  | succ rounds ih =>
      obtain ⟨ret, r₁, hrun, -, hr₁⟩ := hr.returns (E := E)
      simp only [processAll, wp_bind]
      refine wp_of_run hrun ?_
      have hstep : attempt E r = .ok (decide (ret ≠ 0), r₁) := attempt_eq_ok.mpr ⟨ret, hrun, rfl⟩
      have hpacket := hrun
      rw [tryProcessOne_eq hopen hr.2] at hpacket
      by_cases hret : ret = 0
      · subst hret
        obtain ⟨hsame, hstate, hlength⟩ := attempt_resume hr hopen hstep []
        refine wp.ite (fun h => absurd h (by decide)) fun _ => ?_
        refine wp.ite (fun _ => ?_) fun h => absurd rfl h
        refine ⟨?_, hr₁, by simp, ?_⟩
        · exact ((packetDecoder E).run_wait hr (decide_eq_false hopen) hstep x).symm
        · rintro b ⟨⟩
          rw [Receiver.feed_nil, Receiver.feed_nil, hstep] at hsame
          exact ⟨hsame.symm, hlength.le, tryPacket_room hr₁.1.header hpacket, .inl,
            fun hb => ⟨hb, hlength⟩⟩
      · have hprogress := tryPacket_progress hpacket hret
        have hrun₁ : (packetDecoder E).run (r₁.feed x) = (packetDecoder E).run (r.feed x) := by
          rw [decide_eq_true hret] at hstep
          exact ((packetDecoder E).run_progress hr (decide_eq_false hopen) hstep x).symm
        cases hprogress with
        | packet hopen₁ hshorter =>
            refine wp.ite (fun h => absurd h (by decide)) fun _ => ?_
            refine wp.ite (fun h => by cases h) fun _ => ?_
            refine wp.imp (ih true hr₁ hopen₁ (by omega)) fun out r₂ h => ?_
            refine ⟨h.run.trans hrun₁, h.decoding, fun hout => ?_, fun b hout => ?_⟩
            · exact (h.interrupted hout).imp_right fun hlt => hlt.trans hshorter
            · obtain ⟨hwait, hle, hroom, -, hfalse⟩ := h.finished b hout
              exact ⟨hwait, by omega, hroom, fun _ => .inr (by omega), fun hb =>
                absurd (hfalse hb).1 (by decide)⟩
        | ended hend =>
            refine wp.ite (fun _ => ?_) fun h => absurd (by decide) h
            exact ⟨hrun₁, hr₁, fun _ => hend, fun _ h => by cases h⟩

/-- Nothing is left to do: the connection is closed, or all reads are delivered and
the buffer waits for more. -/
def Server.done (E : Env) (s : Server) : Prop :=
  s.link.conn.state = .closed ∨ (s.input = [] ∧ attempt E s.toReceiver = .ok (false, s.toReceiver))

/-- A call of `ProcessInput` gets the work done or some of it. -/
structure Polled (E : Env) (s s' : Server) : Prop where
  onward : Onward E s s'
  left : s'.done E ∨ s'.left < s.left

theorem processRounds_spec {rounds : ℕ} (progressed : Bool) (hs : Decoding s.toReceiver)
    (hintact : Intact s.input) (hrounds : s.left < rounds) :
    wp (processRounds E rounds progressed) (fun _ s' => Polled E s s') (fun _ => False) s := by
  induction rounds generalizing s progressed with
  | zero => exact absurd hrounds (Nat.not_lt_zero _)
  | succ rounds ih =>
      simp only [processRounds, wp_bind, ServerM.wp_conn]
      refine wp.ite (fun hclosed => ⟨⟨rfl, hs, hintact⟩, .inl (.inl hclosed)⟩) fun hopen => ?_
      simp only [wp_bind]
      refine wp.imp (receive_spec (E := E) hs hintact) fun out s₁ h => ?_
      obtain ⟨got, rfl, h₁⟩ := h
      simp only [wp_bind, wp_onRecv, wp_rx]
      have hopen₁ : s₁.link.conn.state ≠ .closed := h₁.link ▸ hopen
      refine wp.imp (processAll_spec (scriptBytes s₁.input) got h₁.onward.decoding hopen₁
        (Nat.lt_succ_self _)) fun out r₂ h₂ => ?_
      -- what the pump does at one read is a run of the packet decoder
      have honward : Onward E s { s₁ with toReceiver := r₂ } :=
        h₁.onward.trans ⟨h₂.run, h₂.decoding, h₁.onward.intact⟩
      have hle₁ := h₁.left_le
      have hleft₂ : Server.left { s₁ with toReceiver := r₂ } + s₁.rx.buf.length =
          s₁.left + r₂.rx.buf.length := by
        simp only [Server.left]
        omega
      cases out with
      | none =>
          refine ⟨honward, ?_⟩
          rcases h₂.interrupted rfl with hclosed | hshorter
          · exact .inl (.inl hclosed)
          · exact .inr (by omega)
      | some any =>
          obtain ⟨hwait, hle, hroom, htrue, hfalse⟩ := h₂.finished any rfl
          refine wp.ite (fun hany => ?_) fun hany => ?_
          · have hlt : Server.left { s₁ with toReceiver := r₂ } < s.left := by
              rcases htrue hany with hgot | hshorter
              · have hlt₁ := h₁.left hgot
                omega
              · omega
            refine wp.imp (ih true h₂.decoding h₁.onward.intact (by omega)) fun _ s₃ h₃ => ?_
            refine ⟨honward.trans h₃.onward, h₃.left.imp_right fun h => h.trans hlt⟩
          · have hany : any = false := by simpa using hany
            obtain ⟨hgot, hlength⟩ := hfalse hany
            refine ⟨honward, ?_⟩
            obtain ⟨hrx, hlt | ⟨hnil, heq⟩ | ⟨hfull, heq⟩⟩ := h₁.idle hgot
            · exact .inr (by omega)
            · exact .inl (.inr ⟨by rw [heq]; exact hnil, hwait⟩)
            -- a full buffer cannot be what the decoder waits in
            · rw [hlength, hrx] at hroom
              exact absurd hroom (Nat.not_lt.mpr hfull)

theorem processInput_spec (hs : Decoding s.toReceiver) (hintact : Intact s.input) :
    wp (processInput E) (fun _ s' => Polled E s s') (fun _ => False) s := by
  simp only [processInput, wp_bind, wp_get]
  exact processRounds_spec false hs hintact (Nat.lt_succ_self _)

theorem receive_nil (hnil : s.input = []) :
    wp receive (fun out s' => out = some false ∧ s' = s) (fun _ => False) s := by
  simp only [receive, wp_bind, wp_onRecv, wp_rx]
  refine wp.ite (fun _ => ?_) fun _ => ⟨rfl, rfl⟩
  simp only [wp_bind]
  refine wp_of_run (show rd _ s = .ok (some [], s) by simp only [rd, hnil]) ?_
  simp only [wp_bind, wp_onRecv, wp_setRx, wp_pure, List.append_nil]
  exact ⟨by simp, trivial⟩

/-- With nothing left to do, `ProcessInput` does nothing. -/
theorem processInput_done (hdone : s.done E) :
    wp (processInput E) (fun _ s' => s' = s) (fun _ => False) s := by
  simp only [processInput, wp_bind, wp_get, inputBound, processRounds, ServerM.wp_conn]
  refine wp.ite (fun _ => rfl) fun hopen => ?_
  obtain ⟨hnil, hwait⟩ := hdone.resolve_left hopen
  obtain ⟨ret, hrun, hret⟩ := attempt_eq_ok.mp hwait
  obtain rfl : ret = 0 := by simpa using hret
  simp only [wp_bind]
  refine wp.imp (receive_nil hnil) fun out s' h => ?_
  obtain ⟨rfl, rfl⟩ := h
  simp only [wp_bind, wp_onRecv, wp_rx, processAll]
  exact wp_of_run hrun rfl

/-- `SshPoll`, a number of times. -/
def pollTimes (E : Env) : ℕ → ServerM Unit
  | 0 => pure ()
  | n + 1 => do
      let _ ← sshPoll E
      pollTimes E n

theorem pollTimes_done (n : ℕ) (hdone : s.done E) :
    wp (pollTimes E n) (fun _ s' => s' = s) (fun _ => False) s := by
  induction n with
  | zero => rfl
  | succ n ih =>
      simp only [pollTimes, sshPoll, wp_bind, wp_pure]
      refine wp.imp (processInput_done hdone) fun _ s' heq => ?_
      rw [heq]
      exact ih

/-- Polling often enough gets all of the work done. -/
theorem pollTimes_spec {n : ℕ} (hs : Decoding s.toReceiver) (hintact : Intact s.input)
    (hn : s.left < n) :
    wp (pollTimes E n) (fun _ s' => Onward E s s' ∧ s'.done E) (fun _ => False) s := by
  induction n generalizing s with
  | zero => exact absurd hn (Nat.not_lt_zero _)
  | succ n ih =>
      simp only [pollTimes, sshPoll, wp_bind, wp_pure]
      refine wp.imp (processInput_spec hs hintact) fun _ s₁ h₁ => ?_
      rcases h₁.left with hdone | hlt
      · exact wp.imp (pollTimes_done n hdone) fun _ s₂ heq => heq ▸ ⟨h₁.onward, hdone⟩
      · refine wp.imp (ih h₁.onward.decoding h₁.onward.intact (by omega)) fun _ s₂ h₂ => ?_
        exact ⟨h₁.onward.trans h₂.1, h₂.2⟩

/-- When nothing is left to do, decoding ends where it is. -/
theorem Server.done.outcome (hdone : s.done E) :
    (s.outcome E).map Receiver.link = .ok s.link := by
  unfold Server.outcome
  by_cases hclosed : s.link.conn.state = .closed
  · rw [IncrementalDecoder.Decoder.run_stopped]
    · rfl
    · exact decide_eq_true hclosed
  · obtain ⟨hnil, hwait⟩ := hdone.resolve_left hclosed
    rw [hnil, scriptBytes, Receiver.feed_nil,
      (packetDecoder E).run_of_wait (decide_eq_false hclosed) hwait]
    rfl

end EfiSshServer
