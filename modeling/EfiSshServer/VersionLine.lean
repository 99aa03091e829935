import EfiSshServer.Scenario

/-!
# The version line and its 256 bytes

`TryProcessOne` tests the length of the version line only while no line feed has
arrived.  A line that comes in together with its line feed is stored whatever its
length is, so whether `clientVersion` overflows depends on how the transport cuts
the stream into reads.  `Overruns` describes the streams and cuts with which it
does; with all others every store stays inside the 256 bytes.
-/

namespace EfiSshServer

open StateProgram RecvM

variable {E : Env} {r : Receiver} {s s₀ : Server} {b : Bytes} {input : List ReadResult} {o : Prop}
  {fault : Fault → Prop}

/-! ## The streams that overflow -/

/-- No line feed yet, and short enough to wait for one. -/
def AwaitsLine (b : Bytes) : Prop := lineEnd b = b.length ∧ b.length < 255

/-- With `b` in the buffer and `input` to come, a supported version line of 256 bytes or
more is complete when the server first looks at it: every time it had to wait for more,
fewer than 255 bytes were there. -/
inductive Overruns : Bytes → List ReadResult → Prop
  | line {b : Bytes} {input : List ReadResult} (hline : lineEnd b < b.length)
      (hssh : isSshLine (firstLine b) = true) (hsupported : isSupported (firstLine b) = true)
      (hlong : clientVersionSize ≤ (firstLine b).length) : Overruns b input
  | skip {b : Bytes} {input : List ReadResult} (hline : lineEnd b < b.length)
      (hssh : isSshLine (firstLine b) = false)
      (h : Overruns (b.drop (lineEnd b + 1)) input) : Overruns b input
  | read {b x : Bytes} {rest : List ReadResult} (hwait : AwaitsLine b)
      (hfits : x.length ≤ sshRxBuf - b.length) (h : Overruns (b ++ x) rest) :
      Overruns b (.data x :: rest)
  | readPart {b x : Bytes} {rest : List ReadResult} (hwait : AwaitsLine b)
      (hfits : ¬ x.length ≤ sshRxBuf - b.length)
      (h : Overruns (b ++ x.take (sshRxBuf - b.length))
        (.data (x.drop (sshRxBuf - b.length)) :: rest)) : Overruns b (.data x :: rest)

theorem awaitsLine_nil : AwaitsLine [] := ⟨rfl, by decide⟩

/-- A buffer without a line feed overflows only after another read. -/
theorem overruns_iff_of_no_line (hline : lineEnd b = b.length) :
    Overruns b input ↔ AwaitsLine b ∧ ∃ x rest, input = .data x :: rest ∧
      ((x.length ≤ sshRxBuf - b.length ∧ Overruns (b ++ x) rest) ∨
        (¬ x.length ≤ sshRxBuf - b.length ∧ Overruns (b ++ x.take (sshRxBuf - b.length))
          (.data (x.drop (sshRxBuf - b.length)) :: rest))) := by
  constructor
  · intro h
    cases h with
    | line hlt | skip hlt => exact absurd hline hlt.ne
    | read hwait hfits h => exact ⟨hwait, _, _, rfl, .inl ⟨hfits, h⟩⟩
    | readPart hwait hfits h => exact ⟨hwait, _, _, rfl, .inr ⟨hfits, h⟩⟩
  · rintro ⟨hwait, x, rest, rfl, ⟨hfits, h⟩ | ⟨hfits, h⟩⟩
    · exact .read hwait hfits h
    · exact .readPart hwait hfits h

/-- A version line decides. -/
theorem overruns_iff_of_ssh (hline : lineEnd b < b.length)
    (hssh : isSshLine (firstLine b) = true) :
    Overruns b input ↔
      isSupported (firstLine b) = true ∧ clientVersionSize ≤ (firstLine b).length := by
  constructor
  · intro h
    cases h with
    | line _ _ hsupported hlong => exact ⟨hsupported, hlong⟩
    | skip _ hother =>
        rw [hssh] at hother
        cases hother
    | read hwait | readPart hwait => exact absurd hwait.1 hline.ne
  · exact fun h => .line hline hssh h.1 h.2

/-- Any other line is skipped. -/
theorem overruns_iff_of_other (hline : lineEnd b < b.length)
    (hssh : isSshLine (firstLine b) = false) :
    Overruns b input ↔ Overruns (b.drop (lineEnd b + 1)) input := by
  constructor
  · intro h
    cases h with
    | line _ hversion =>
        rw [hssh] at hversion
        cases hversion
    | skip _ _ h => exact h
    | read hwait | readPart hwait => exact absurd hwait.1 hline.ne
  · exact .skip hline hssh

/-! ## The version exchange runs along them

`Fate o` says what a receiver is in for: while the version exchange lasts, an
overflow lies ahead exactly if `o`; once it is over, there was none. -/

inductive Fate (o : Prop) (r : Receiver) (input : List ReadResult) : Prop
  | pending (hversion : r.link.conn.state = .version) (h : Overruns r.rx.buf input ↔ o)
  | past (hversion : r.link.conn.state ≠ .version) (h : ¬ o)

/-- `Fate` with a buffer that was looked at. -/
inductive Settled (o : Prop) (r : Receiver) (input : List ReadResult) : Prop
  | pending (hversion : r.link.conn.state = .version) (hwait : AwaitsLine r.rx.buf)
      (h : Overruns r.rx.buf input ↔ o)
  | past (hversion : r.link.conn.state ≠ .version) (h : ¬ o)

/-- The one fault there is, and that it was ahead. -/
def Overflows (o : Prop) (f : Fault) : Prop := f = .versionOverflow ∧ o

/-- What a call of `TryProcessOne` does about the version line: it goes on with a
shorter buffer, or waits. -/
inductive LineOutcome (o : Prop) (input : List ReadResult) (r : Receiver) : Int → Receiver → Prop
  | next {r' : Receiver} (hless : r'.rx.buf.length < r.rx.buf.length)
      (h : Fate o r' input) : LineOutcome o input r 1 r'
  | waits (h : Settled o r input) : LineOutcome o input r 0 r
  | past {r' : Receiver} {ret : Int} (hversion : r'.link.conn.state ≠ .version) (h : ¬ o) :
      LineOutcome o input r ret r'

theorem fail_over {reason : UInt32} {msg : String} (h : ¬ o) :
    wp (onLink (fail E reason msg)) (LineOutcome o input r) (Overflows o) r := by
  rw [wp_onLink]
  refine wp.imp (fail_farewell reason msg) fun ret l' hend => .past ?_ h
  rw [hend.2.closed]
  decide

theorem tryVersionLine_outcome (hversion : r.link.conn.state = .version)
    (h : Overruns r.rx.buf input ↔ o) :
    wp (tryVersionLine E) (LineOutcome o input r) (Overflows o) r := by
  simp only [tryVersionLine, wp_bind, wp_rx]
  refine wp.ite (fun hline => ?_) fun hline => ?_
  · refine wp.ite (fun hlong => ?_) fun hshort => ?_
    · refine fail_over fun ho => ?_
      have hwait := ((overruns_iff_of_no_line hline).mp (h.mpr ho)).1
      exact absurd hwait.2 (Nat.not_lt.mpr hlong)
    · exact .waits (.pending hversion ⟨hline, Nat.lt_of_not_le hshort⟩ h)
  have hline : lineEnd r.rx.buf < r.rx.buf.length := lt_of_le_of_ne (lineEnd_le _) hline
  refine wp.ite (fun hssh => ?_) fun hssh => ?_
  · rw [overruns_iff_of_ssh hline hssh] at h
    refine wp.ite (fun hunsupported => ?_) fun hsupported => ?_
    · refine fail_over fun ho => ?_
      rw [(h.mpr ho).1] at hunsupported
      cases hunsupported
    rw [Bool.not_eq_true, Bool.not_eq_false'] at hsupported
    simp only [storeVersion, wp_bind, wp_onLink, LinkM.wp_update, wp_ite, wp_throw]
    refine ⟨fun hlong => ⟨rfl, h.mp ⟨hsupported, Nat.le_of_lt_succ hlong⟩⟩, fun hfits => ?_⟩
    refine wp_compact hline ?_
    refine wp.imp (afterLine_steps (A := True) (E := E) fun _ => rfl) fun ret l' hsteps => ?_
    refine .past (hsteps.state_ne_version (by simp)) fun ho => hfits ?_
    exact Nat.lt_succ_of_le (h.mpr ho).2
  · rw [Bool.not_eq_true] at hssh
    rw [overruns_iff_of_other hline hssh] at h
    simp only [wp_bind]
    refine wp_compact hline ?_
    simp only [wp_onLink, afterLine, wp_bind, LinkM.wp_conn]
    refine wp.ite (fun hkex => ?_) fun _ => ?_
    · rw [hversion] at hkex
      cases hkex.1
    · refine .next ?_ (.pending hversion h)
      show (r.rx.buf.drop _).length < _
      rw [List.length_drop]
      omega

theorem tryProcessOne_outcome (hr : Sound r) (h : Fate o r input) :
    wp (tryProcessOne E) (LineOutcome o input r) (Overflows o) r := by
  simp only [tryProcessOne, tryProcessOneWith, wp_bind, wp_conn]
  cases h with
  | pending hversion h =>
      rw [hversion]
      exact tryVersionLine_outcome hversion h
  | past hversion h =>
      refine wp.ite (fun _ => LineOutcome.past hversion h) fun hclosed => ?_
      refine wp.ite (fun hstate => absurd hstate hversion) fun _ => ?_
      refine wp.imp (tryPacket_moves (A := True) (E := E) hr hclosed hversion)
        fun _ r' hmoves => .past ?_ h
      exact hmoves.1.state_ne_version hversion

/-- The inner loop ends with a buffer that was looked at. -/
theorem processAll_settled (rounds : ℕ) (any : Bool) (hr : Sound r) (h : Fate o r input)
    (hrounds : r.link.conn.state = .version → r.rx.buf.length < rounds) :
    wp (processAll E rounds any) (fun _ r' => Sound r' ∧ Settled o r' input) (Overflows o) r := by
  induction rounds generalizing r any with
  | zero =>
      cases h with
      | pending hversion => exact absurd (hrounds hversion) (Nat.not_lt_zero _)
      | past hversion h => exact ⟨hr, .past hversion h⟩
  | succ rounds ih =>
      simp only [processAll, wp_bind]
      have htry := (tryProcessOne_outcome (E := E) hr h).and
        (tryProcessOne_moves (A := True) hr fun _ => rfl)
      refine wp.imp htry fun ret r' hstep => ?_
      obtain ⟨hout, hmoves⟩ := hstep
      have hr' : Sound r' := hmoves.sound hr
      cases hout with
      | next hless h' =>
          refine ih true hr' h' fun hversion => ?_
          have hlt := hrounds (by_contra fun hne => hmoves.1.state_ne_version hne hversion)
          omega
      | waits h' => exact ⟨hr', h'⟩
      | past hversion h' =>
          refine wp.ite (fun _ => ⟨hr', .past hversion h'⟩) fun _ => ?_
          refine wp.ite (fun _ => ⟨hr', .past hversion h'⟩) fun _ => ?_
          exact ih true hr' (.past hversion h') fun hstate => absurd hstate hversion

/-- What the script has left, as a number that every read makes smaller. -/
def scriptSize (input : List ReadResult) : ℕ := (scriptBytes input).length + input.length

/-- A read into a buffer that awaits a line feed. -/
theorem rd_overruns (hwait : AwaitsLine s.rx.buf) (h : Overruns s.rx.buf s.input ↔ o) :
    wp (rd (sshRxBuf - s.rx.buf.length)) (fun got s' => s'.toReceiver = s.toReceiver ∧
      (∀ x, got = some x → (Overruns (s.rx.buf ++ x) s'.input ↔ o)) ∧ (got = none → ¬ o) ∧
      (o → scriptSize s'.input < scriptSize s.input)) fault s := by
  have hnone : (∀ x rest, s.input ≠ .data x :: rest) → ¬ o := fun hne ho => by
    obtain ⟨-, x, rest, hinput, -⟩ := (overruns_iff_of_no_line hwait.1).mp (h.mpr ho)
    exact hne x rest hinput
  rcases hinput : s.input with _ | ⟨x | _, rest⟩
  · -- nothing to read: the script is empty, or the transport is lost
    have ho := hnone fun x rest => by simp [hinput]
    refine wp_of_run (a := some []) (t := s) (by simp only [rd, hinput])
      ⟨rfl, ?_, by simp, ?_⟩
    · rintro x hx
      cases hx
      rw [List.append_nil]
      exact h
    · exact fun ho' => absurd ho' ho
  · rw [hinput, overruns_iff_of_no_line hwait.1] at h
    have hroom : 0 < sshRxBuf - s.rx.buf.length := by
      have hshort := hwait.2
      simp only [sshRxBuf, sshMaxPacket]
      omega
    -- a delivery is read whole, or cut to the room that is left and put back
    by_cases hfits : x.length ≤ sshRxBuf - s.rx.buf.length
    · refine wp_of_run (a := some x) (t := { s with input := rest })
        (by simp only [rd, hinput, if_pos hfits]) ⟨rfl, ?_, by simp, fun _ => ?_⟩
      · rintro _ ⟨⟩
        rw [← h]
        refine ⟨fun hahead => ⟨hwait, x, rest, rfl, .inl ⟨hfits, hahead⟩⟩, ?_⟩
        rintro ⟨-, _, _, ⟨⟩, ⟨-, hahead⟩ | ⟨hno, -⟩⟩
        · exact hahead
        · exact absurd hfits hno
      · simp only [scriptSize, scriptBytes, List.length_append, List.length_cons]
        omega
    · refine wp_of_run (a := some (x.take (sshRxBuf - s.rx.buf.length)))
        (t := { s with input := .data (x.drop (sshRxBuf - s.rx.buf.length)) :: rest })
        (by simp only [rd, hinput, if_neg hfits]) ⟨rfl, ?_, by simp, fun _ => ?_⟩
      · rintro _ ⟨⟩
        rw [← h]
        refine ⟨fun hahead => ⟨hwait, x, rest, rfl, .inr ⟨hfits, hahead⟩⟩, ?_⟩
        rintro ⟨-, _, _, ⟨⟩, ⟨hyes, -⟩ | ⟨-, hahead⟩⟩
        · exact absurd hyes hfits
        · exact hahead
      · simp only [scriptSize, scriptBytes, List.length_append, List.length_cons, List.length_drop]
        omega
  · have ho := hnone fun x rest => by simp [hinput]
    exact wp_of_run (a := none) (t := { s with input := rest }) (by simp only [rd, hinput])
      ⟨rfl, by simp, fun _ => ho, fun ho' => absurd ho' ho⟩

theorem receive_fate (hs : Sound s.toReceiver) (h : Settled o s.toReceiver s.input) :
    wp receive (fun got s' => Sound s'.toReceiver ∧ Fate o s'.toReceiver s'.input ∧
      (got = none → s'.link.conn.state ≠ .version) ∧
      (o → scriptSize s'.input < scriptSize s.input)) fault s := by
  cases h with
  -- behind the version line the script no longer matters
  | past hversion h =>
      refine wp.imp (receive_moves (A := True) (E := plainEnv fun _ _ => true) hs.header)
        fun _ s' hmoves => ?_
      have hversion' := hmoves.1.state_ne_version hversion
      exact ⟨hmoves.sound hs, .past hversion' h, fun _ => hversion', fun ho => absurd ho h⟩
  | pending hversion hwait h =>
      have hlen : s.rx.haveLen = false := by
        by_contra hlen
        exact (hs.header (by simpa using hlen)).1 hversion
      simp only [receive, wp_bind, wp_onRecv, wp_rx]
      refine wp.ite (fun _ => ?_) fun hfull => absurd (hwait.2.trans (by decide)) hfull
      simp only [wp_bind]
      refine wp.imp (rd_overruns hwait h) fun got s₁ hread => ?_
      obtain ⟨heq, hsome, hnone, hless⟩ := hread
      have hversion₁ : s₁.link.conn.state = .version := heq ▸ hversion
      have hlen₁ : s₁.rx.haveLen = false := heq ▸ hlen
      have hbuffers : s₁.link.conn.buffers := heq ▸ hs.buffers
      split
      · simp only [wp_bind, ServerM.wp_onLink, LinkM.wp_update, wp_pure]
        refine ⟨⟨hbuffers, fun hhave => ?_⟩, .past (by simp) (hnone rfl), fun _ => by simp, hless⟩
        rw [show s₁.rx.haveLen = true from hhave] at hlen₁
        cases hlen₁
      · next x =>
          simp only [wp_bind, wp_onRecv, wp_setRx, wp_pure]
          refine ⟨⟨hbuffers, fun hhave => ?_⟩, .pending hversion₁ ?_, by simp, hless⟩
          · rw [show s₁.rx.haveLen = true from hhave] at hlen₁
            cases hlen₁
          · show Overruns (s₁.rx.buf ++ x) s₁.input ↔ o
            rw [show s₁.rx.buf = s.rx.buf from congrArg (·.rx.buf) heq]
            exact hsome x rfl

/-- The outer loop; an overflow that lies ahead comes nearer with every call. -/
theorem processRounds_settled (rounds : ℕ) (progressed : Bool) (hs : Sound s.toReceiver)
    (h : Settled o s.toReceiver s.input) :
    wp (processRounds E rounds progressed) (fun _ s' => Sound s'.toReceiver ∧
      Settled o s'.toReceiver s'.input ∧
      (o → scriptSize s'.input + min rounds 1 ≤ scriptSize s.input)) (Overflows o) s := by
  induction rounds generalizing s progressed with
  | zero => exact ⟨hs, h, fun _ => Nat.le_refl _⟩
  | succ rounds ih =>
      simp only [processRounds, wp_bind, ServerM.wp_conn]
      refine wp.ite (fun hclosed => ⟨hs, h, fun ho => ?_⟩) fun _ => ?_
      · cases h with
        | pending hversion =>
            rw [hversion] at hclosed
            cases hclosed
        | past _ h => exact absurd ho h
      simp only [wp_bind]
      refine wp.imp (receive_fate hs h) fun got s₁ hread => ?_
      obtain ⟨hs₁, h₁, hnone, hless⟩ := hread
      have hless : o → scriptSize s₁.input + min (rounds + 1) 1 ≤ scriptSize s.input := fun ho => by
        have hlt := hless ho
        omega
      cases got with
      | none =>
          refine ⟨hs₁, .past (hnone rfl) ?_, hless⟩
          cases h₁ with
          | pending hversion => exact absurd hversion (hnone rfl)
          | past _ h => exact h
      | some got =>
          simp only [wp_bind, wp_onRecv, wp_rx]
          have hall := processAll_settled (E := E) (s₁.rx.buf.length + 1) got hs₁ h₁
            fun _ => Nat.lt_succ_self _
          refine wp.imp hall fun any r₂ hend => ?_
          obtain ⟨hs₂, h₂⟩ := hend
          split
          · refine wp.ite (fun _ => ?_) fun _ => ⟨hs₂, h₂, hless⟩
            refine wp.imp (ih (s := { s₁ with toReceiver := r₂ }) true hs₂ h₂) fun _ s₃ hend => ?_
            refine ⟨hend.1, hend.2.1, fun ho => ?_⟩
            have hle := hend.2.2 ho
            have hlt := hless ho
            have hsame : scriptSize ({ s₁ with toReceiver := r₂ } : Server).input =
              scriptSize s₁.input := rfl
            omega
          · exact ⟨hs₂, h₂, hless⟩

theorem processInput_settled (hs : Sound s.toReceiver) (h : Settled o s.toReceiver s.input) :
    wp (processInput E) (fun _ s' => Sound s'.toReceiver ∧ Settled o s'.toReceiver s'.input ∧
      (o → scriptSize s'.input < scriptSize s.input)) (Overflows o) s := by
  simp only [processInput, wp_bind, wp_get]
  refine wp.imp (processRounds_settled (inputBound s) false hs h) fun _ s' hend => ?_
  refine ⟨hend.1, hend.2.1, fun ho => ?_⟩
  have hle := hend.2.2 ho
  have hpos : 1 ≤ inputBound s := Nat.le_add_left 1 _
  omega

/-! ## Runs -/

/-- While no overflow lies ahead, nothing leads to one. -/
theorem serverInvariant_fits : ServerInvariant E (fun _ => False) fun s =>
    Sound s.toReceiver ∧ (s.link.conn.state = .version → AwaitsLine s.rx.buf ∧
      ¬ Overruns s.rx.buf s.input) where
  steps := by
    rintro s l' ⟨hs, hfits⟩ hsteps
    have hback : l'.conn.state = .version → s.link.conn.state = .version := fun hversion =>
      by_contra fun hne => hsteps.state_ne_version hne hversion
    exact ⟨⟨hsteps.buffers hs.buffers, fun hlen =>
      ⟨hsteps.state_ne_version (hs.header hlen).1, (hs.header hlen).2⟩⟩,
      fun hversion => hfits (hback hversion)⟩
  input := by
    rintro s ⟨hs, hfits⟩
    have hsettled : Settled False s.toReceiver s.input := by
      by_cases hversion : s.link.conn.state = .version
      · exact .pending hversion (hfits hversion).1 (⟨(hfits hversion).2, False.elim⟩)
      · exact .past hversion id
    refine (processInput_settled hs hsettled).mono (fun _ s' h => ⟨h.1, fun hversion => ?_⟩)
      fun _ h => h.2
    cases h.2.1 with
    | pending _ hwait h => exact ⟨hwait, h.mp⟩
    | past hne => exact absurd hversion hne

/-- While an overflow lies ahead, polling leads to it. -/
theorem overflow_ahead (hs : Sound s.toReceiver) (hversion : s.link.conn.state = .version)
    (hwait : AwaitsLine s.rx.buf) (h : Overruns s.rx.buf s.input) (hruns : Runs E s₀ s) :
    ∃ t, Runs E s₀ t ∧ runCall E .poll t = .error .versionOverflow := by
  induction hsize : scriptSize s.input using Nat.strong_induction_on generalizing s with
  | _ n ih =>
      have hpoll : wp (runCall E .poll) (fun _ s' => Sound s'.toReceiver ∧
          Settled True s'.toReceiver s'.input ∧ (True → scriptSize s'.input < scriptSize s.input))
          (Overflows True) s := by
        simp only [runCall, sshPoll, wp_bind]
        refine wp.imp (processInput_settled hs ?_) fun _ _ h => h
        exact .pending hversion hwait ⟨fun _ => trivial, fun _ => h⟩
      cases hrun : runCall E .poll s with
      | error f =>
          obtain ⟨rfl, -⟩ := hpoll.error hrun
          exact ⟨s, hruns, hrun⟩
      | ok out =>
          obtain ⟨hs', hsettled, hless⟩ := hpoll.ok hrun
          cases hsettled with
          | pending hversion' hwait' h' =>
              exact ih _ (hsize ▸ hless trivial) hs' hversion' hwait' (h'.mpr trivial)
                (hruns.call .poll hrun) rfl
          | past _ h => exact absurd trivial h

/-- The stores into `clientVersion` stay inside it, in every run on what the client sends
and the transport makes of it, exactly if these do not overrun it. -/
theorem version_store_in_range_iff {connSize : ℕ} {hostSeed : Bytes} {calls : List Call}
    (hnew : sshNew E connSize hostSeed calls input = some s₀) :
    (∀ s call, Runs E s₀ s → runCall E call s ≠ .error .versionOverflow) ↔
      ¬ Overruns [] input := by
  obtain ⟨hsession, hrx, hinput⟩ := sshNew_eq hnew
  have hbuf : s₀.rx.buf = [] := by rw [hrx]
  have hversion : s₀.link.conn.state = .version := congrArg (·.conn.state) hsession
  constructor
  · intro hfits h
    obtain ⟨t, hruns, hrun⟩ := overflow_ahead (E := E) (sshNew_sound hnew) hversion
      (hbuf ▸ awaitsLine_nil) (by rw [hbuf, hinput]; exact h) .none
    exact hfits t .poll hruns hrun
  · intro h s call hruns hrun
    have hstart : Sound s₀.toReceiver ∧ (s₀.link.conn.state = .version →
        AwaitsLine s₀.rx.buf ∧ ¬ Overruns s₀.rx.buf s₀.input) :=
      ⟨sshNew_sound hnew, fun _ => by rw [hbuf, hinput]; exact ⟨awaitsLine_nil, h⟩⟩
    have hend := serverInvariant_fits.runs hruns hstart
    exact (serverInvariant_fits.runCall call hend).error hrun

/-- A version line that fits. -/
theorem version_store_in_range_short : ∃ s₀, sshNew (plainEnv fun _ _ => true) 0 [] []
      [.data clientVersionLine] = some s₀ ∧
    ∀ s call, Runs (plainEnv fun _ _ => true) s₀ s →
      runCall (plainEnv fun _ _ => true) call s ≠ .error .versionOverflow := by
  obtain ⟨s₀, hnew⟩ := plainEnv_new (fun _ _ => true) 0 [] [] [.data clientVersionLine]
  refine ⟨s₀, hnew, (version_store_in_range_iff hnew).mpr fun h => ?_⟩
  obtain ⟨-, x, rest, hinput, ⟨-, h⟩ | ⟨hlong, -⟩⟩ := (overruns_iff_of_no_line rfl).mp h
  · cases hinput
    obtain ⟨-, hlong⟩ := (overruns_iff_of_ssh (by decide) (by decide)).mp h
    exact absurd hlong (by decide)
  · cases hinput
    exact hlong (by decide)

/-- A version line of 256 bytes that arrives in one read overflows the buffer. -/
theorem version_store_overflows : ∃ s, Reachable (plainEnv fun _ _ => true) s ∧
    runCall (plainEnv fun _ _ => true) .poll s = .error .versionOverflow := by
  obtain ⟨s, hreach, hfault⟩ := exists_reachable (E := plainEnv fun _ _ => true)
    (P := fun s => (runCall (plainEnv fun _ _ => true) .poll s).isOk = false) []
    [.data (ascii "SSH-2.0-" ++ List.replicate 248 65 ++ [lf])] (by decide +kernel)
  refine ⟨s, hreach, ?_⟩
  cases hrun : runCall (plainEnv fun _ _ => true) .poll s with
  | error f => rw [hreach.fault_eq_versionOverflow hrun]
  | ok out =>
      rw [hrun] at hfault
      cases hfault

end EfiSshServer
