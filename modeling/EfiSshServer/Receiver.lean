import EfiSshServer.Refinement

/-!
# Receiving is a sequence of steps

The same for `TryProcessOne` and `ProcessInput`.  On the way the accesses to the
receive buffer are shown to stay inside it: the only fault is the overflow of
`clientVersion`.
-/

namespace EfiSshServer

open StateProgram

variable {A : Prop} {E : Env} {l : Link} {r r' : Receiver} {fault : Fault → Prop}

/-! ## Rules for the receiver -/

namespace RecvM

@[simp] theorem wp_onLink {α : Type} {m : LinkM α} {post : α → Receiver → Prop} :
    wp (onLink m) post fault =
      fun r => wp m (fun a l => post a { r with link := l }) fault r.link := by
  simp only [onLink, wp_zoom]

@[simp] theorem wp_conn {post : Conn → Receiver → Prop} :
    wp conn post fault = fun r => post r.link.conn r :=
  rfl

@[simp] theorem wp_rx {post : Rx → Receiver → Prop} :
    wp rx post fault = fun r => post r.rx r :=
  rfl

@[simp] theorem wp_setRx {post : Unit → Receiver → Prop} (f : Rx → Rx) :
    wp (setRx f) post fault = fun r => post () { r with rx := f r.rx } :=
  rfl

theorem wp_slice {post : Bytes → Receiver → Prop} {off len : ℕ}
    (hrange : off + len ≤ r.rx.buf.length) (h : post ((r.rx.buf.drop off).take len) r) :
    wp (slice off len) post fault r := by
  simpa [wp, slice, hrange] using h

theorem wp_compact {post : Unit → Receiver → Prop} {n : ℕ} (hrange : n ≤ r.rx.buf.length)
    (h : post () { r with rx := { r.rx with buf := r.rx.buf.drop n } }) :
    wp (compact n) post fault r := by
  simpa [wp, compact, hrange] using h

end RecvM

open RecvM

/-- The persisted header is one that passed the length checks. -/
def HeaderOk (r : Receiver) : Prop :=
  r.rx.haveLen = true → r.link.conn.state ≠ .version ∧ 5 ≤ r.rx.pktLen ∧
    r.rx.pktLen ≤ sshMaxPacket - 4 ∧ 4 ≤ r.rx.buf.length

/-- What holds of the receiver between two calls of `TryProcessOne`. -/
structure Sound (r : Receiver) : Prop where
  buffers : r.link.conn.buffers
  header : HeaderOk r

/-- A move of the receiver: steps of the session, and a header that stays sound. -/
def Moves (A : Prop) (E : Env) (r r' : Receiver) : Prop :=
  StepsOf A E r.link.toSession r'.link.toSession ∧ HeaderOk r'

theorem StepsOf.invariant {I : Session → Prop} {s t : Session}
    (hstep : ∀ s t, StepOf A E s t → I s → I t) (h : StepsOf A E s t) (hI : I s) : I t :=
  invariant_of_step hstep h hI

theorem StepsOf.buffers {s t : Session} (h : StepsOf A E s t) (hbuf : s.conn.buffers) :
    t.conn.buffers :=
  h.invariant (I := fun s => s.conn.buffers) (fun _ _ h => h.step.buffers) hbuf

/-- No step goes back to the version exchange. -/
theorem Step.state_ne_version {s t : Session} (h : Step E s t) (hs : s.conn.state ≠ .version) :
    t.conn.state ≠ .version := by
  have hsend : ∀ {a b : SshState}, (b = a ∨ b = .closed) → a ≠ .version → b ≠ .version := by
    rintro a b (rfl | rfl) ha
    · exact ha
    · decide
  have hsends : ∀ {P : UInt8 → Prop} (u v : Session), Sends P u v → u.conn.state ≠ .version →
      v.conn.state ≠ .version := fun u v h => hsend h.frame.state
  cases h with
  | disconnect h => exact hsend h.frame.state hs
  | reply _ _ h | authRejected _ _ _ _ _ h | openChannel _ _ _ _ _ _ _ _ h | closeReply _ _ _ _ h
  | writeLost _ _ h | writeData _ _ _ _ _ h => exact hsend h.frame.state hs
  | authAccepted _ _ _ _ h => exact hsend h.frame.state (by simp)
  | authExhausted _ _ h => exact hsend h.frame.state hs
  | firstKexInit _ _ _ h => exact hsend (.inl h.state_eq) hs
  | firstKexInitFailed _ _ h =>
      exact h.keeps (I := fun s => s.conn.state ≠ .version) (fun _ _ h => h) hsends hs
  | kexInit _ _ hend =>
      exact hend.keeps (I := fun s => s.conn.state ≠ .version) (fun _ _ h => h) hsends
        (fun _ _ h => h) hs
  | exchange _ _ hend =>
      exact hend.keeps (I := fun s => s.conn.state ≠ .version) hsends (fun _ _ _ h => h) hs
  | newKeys _ _ hend =>
      refine hend.keeps (I := fun s => s.conn.state ≠ .version) hsends (fun _ h => ?_) hs
      simp only [Conn.installed]
      split
      · simp
      · exact h
  | startClose _ _ _ _ h =>
      obtain ⟨u, hsends, rfl⟩ := h.sends
      exact hsend hsends.frame.state hs
  | read max _ hcredit =>
      obtain ⟨u, consumed, hsends, rfl⟩ := hcredit.sends
      exact hsend hsends.frame.state hs
  | close | acceptVersion => simp
  | _ => exact hs

theorem StepsOf.state_ne_version {s t : Session} (h : StepsOf A E s t)
    (hs : s.conn.state ≠ .version) : t.conn.state ≠ .version :=
  h.invariant (I := fun s => s.conn.state ≠ .version) (fun _ _ h => h.step.state_ne_version) hs

theorem Moves.refl (h : HeaderOk r) : Moves A E r r := ⟨.refl _, h⟩

theorem Moves.trans {r'' : Receiver} (h : Moves A E r r') (h' : Moves A E r' r'') :
    Moves A E r r'' :=
  ⟨h.1.trans h'.1, h'.2⟩

theorem Moves.sound (h : Moves A E r r') (hr : Sound r) : Sound r' :=
  ⟨h.1.buffers hr.buffers, h.2⟩

/-- A program of the link moves the receiver. -/
theorem onLink_moves {α : Type} {m : LinkM α} (hr : HeaderOk r)
    (h : wp m (fun _ l' => StepsOf A E r.link.toSession l'.toSession) fault r.link) :
    wp (onLink m) (fun _ r' => Moves A E r r') fault r := by
  rw [wp_onLink]
  exact wp.imp h fun _ _ hsteps => ⟨hsteps, fun hlen =>
    ⟨hsteps.state_ne_version (hr hlen).1, (hr hlen).2⟩⟩

/-! ## The version line -/

theorem sendKexInit_steps (hstate : l.conn.state = .kex) (hkex : l.conn.kex = .waitKexinit)
    (hnew : l.conn.kx.kexInitSent = false) :
    wp (sendKexInit E) (fun _ l' => StepsOf A E l.toSession l'.toSession) fault l := by
  refine wp.imp (sendKexInit_spec (E := E) hnew) fun ret l' h => ?_
  by_cases hret : ret = 0
  · exact (StepOf.firstKexInit hstate hkex hnew (h.2 hret)).steps
  · exact (StepOf.firstKexInitFailed hkex hnew (h.1 hret)).steps

theorem afterLine_steps (hkex : l.conn.state = .kex → l.conn.kex = .waitKexinit) :
    wp (afterLine E) (fun _ l' => StepsOf A E l.toSession l'.toSession) fault l := by
  simp only [afterLine, wp_bind, LinkM.wp_conn, wp_ite, wp_pure]
  refine ⟨fun h => ?_, fun _ => .refl _⟩
  refine wp.imp (sendKexInit_steps (A := A) h.1 (hkex h.1) h.2) fun ret l' hsteps => ?_
  exact ⟨fun _ => hsteps, fun _ => hsteps⟩

theorem lineEnd_le (b : Bytes) : lineEnd b ≤ b.length :=
  (List.takeWhile_sublist _).length_le

theorem tryVersionLine_moves (hr : HeaderOk r) (hstate : r.link.conn.state = .version) :
    wp (tryVersionLine E) (fun _ r' => Moves A E r r') (· = .versionOverflow) r := by
  simp only [tryVersionLine, wp_bind, wp_rx]
  refine wp.ite (fun _ => ?_) fun hlf => ?_
  · simp only [wp_ite, wp_pure]
    exact ⟨fun _ => onLink_moves hr (fail_steps _ _), fun _ => .refl hr⟩
  have hend : lineEnd r.rx.buf + 1 ≤ r.rx.buf.length := by
    have hle := lineEnd_le r.rx.buf
    omega
  have hheader : ∀ (l : Link) (b : Bytes), HeaderOk ⟨l, { r.rx with buf := b }⟩ :=
    fun l b hlen => absurd hstate (hr hlen).1
  refine wp.ite (fun hssh => ?_) fun _ => ?_
  · refine wp.ite (fun _ => onLink_moves hr (fail_steps _ _)) fun _ => ?_
    simp only [storeVersion, wp_bind, wp_onLink, LinkM.wp_update, wp_ite, wp_throw]
    refine ⟨fun _ => trivial, fun hfits => wp_compact hend ?_⟩
    refine wp.imp (afterLine_steps (A := A) (E := E) fun _ => rfl) fun _ l' h => ⟨?_, hheader l' _⟩
    exact (StepOf.acceptVersion _ hstate (Nat.not_lt.mp hfits) hssh).steps.trans h
  · simp only [wp_bind]
    refine wp_compact hend ?_
    refine onLink_moves (hheader _ _) (afterLine_steps fun h => ?_)
    rw [hstate] at h
    cases h

/-! ## Packets -/

/-- No MAC is longer than that of SHA-512. -/
theorem trailerLen_le (d : Dir) : trailerLen d ≤ 64 := by
  unfold trailerLen Dir.macLen
  split
  · cases d.macType <;> decide
  · exact Nat.zero_le 64

/-- Nothing the rest of the packet depends on has changed. -/
structure SamePacket (r r' : Receiver) : Prop where
  length : r'.rx.buf.length = r.rx.buf.length
  haveLen : r'.rx.haveLen = r.rx.haveLen
  pktLen : r'.rx.pktLen = r.rx.pktLen
  active : r'.link.conn.inDir.active = r.link.conn.inDir.active
  macType : r'.link.conn.inDir.macType = r.link.conn.inDir.macType
  state : r'.link.conn.state = r.link.conn.state

theorem SamePacket.header (h : SamePacket r r') (hr : HeaderOk r) : HeaderOk r' := by
  intro hlen
  rw [h.haveLen] at hlen
  rw [h.length, h.pktLen, h.state]
  exact hr hlen

theorem decipher_spec (data : Bytes) :
    wp (decipher E data) (fun out l' => StepsOf A E l.toSession l'.toSession ∧
      (∀ plain, out = some plain → plain.length = data.length) ∧
      l'.conn.inDir.active = l.conn.inDir.active ∧
      l'.conn.inDir.macType = l.conn.inDir.macType ∧ l'.conn.state = l.conn.state) fault l := by
  simp only [decipher, wp_bind, LinkM.wp_ask, wp_ite, LinkM.wp_conn, LinkM.wp_update, wp_pure]
  refine ⟨fun _ => ⟨.refl _, nofun, trivial, trivial, trivial⟩, fun _ =>
    ⟨(StepOf.decrypt _ _).steps, ?_, trivial, trivial, trivial⟩⟩
  rintro plain ⟨⟩
  simp [aesCtr]

theorem decryptAt_spec {off len : ℕ} (hrange : off + len ≤ r.rx.buf.length) :
    wp (decryptAt E off len)
      (fun _ r' => StepsOf A E r.link.toSession r'.link.toSession ∧ SamePacket r r') fault r := by
  simp only [decryptAt, wp_bind, wp_onLink]
  refine wp_slice hrange (wp.imp (decipher_spec (A := A) _) fun out l' h => ?_)
  obtain ⟨hsteps, hlength, hactive, hmac, hstate⟩ := h
  split
  · next plain =>
      simp only [wp_bind, wp_setRx, wp_pure]
      refine ⟨hsteps, ⟨?_, rfl, rfl, hactive, hmac, hstate⟩⟩
      have hplain := hlength plain rfl
      simp only [List.length_append, List.length_take, List.length_drop] at hplain ⊢
      omega
  · exact ⟨hsteps, ⟨rfl, rfl, rfl, hactive, hmac, hstate⟩⟩

theorem fail_moves (hr : HeaderOk r) (reason : UInt32) (msg : String) :
    wp (onLink (fail E reason msg)) (fun ret r' => ret = -1 ∧ Moves A E r r') fault r := by
  rw [wp_onLink]
  refine wp.imp (fail_farewell reason msg) fun ret l' h => ⟨h.1, ?_⟩
  have hsteps : StepsOf A E r.link.toSession l'.toSession := (StepOf.disconnect h.2).steps
  exact ⟨hsteps, fun hlen => ⟨hsteps.state_ne_version (hr hlen).1, (hr hlen).2⟩⟩

/-- A failure meets any promise about another result. -/
theorem fail_moves_unless {r₁ : Receiver} {k : Int} {Q : Receiver → Prop} (hmoves : Moves A E r r₁)
    (hk : k ≠ -1) (reason : UInt32) (msg : String) :
    wp (onLink (fail E reason msg)) (fun ret r' => Moves A E r r' ∧ (ret = k → Q r')) fault r₁ := by
  refine wp.imp (fail_moves (A := A) hmoves.2 reason msg) fun ret r' h =>
    ⟨hmoves.trans h.2, fun hret => ?_⟩
  exact absurd (hret.symm.trans h.1) hk

theorem checkLength_spec {r₁ : Receiver} (d : Dir) (hmoves : Moves A E r r₁)
    (hstate : r.link.conn.state ≠ .version) (hlen : r₁.rx.haveLen = false)
    (hfour : 4 ≤ r₁.rx.buf.length) (hsame : r₁.link.conn.state = r.link.conn.state) :
    wp (checkLength E d) (fun ret r' => Moves A E r r' ∧
      (ret = 1 → r'.rx.haveLen = true ∧ r'.link.conn.state = r.link.conn.state)) fault r₁ := by
  simp only [checkLength, wp_bind]
  refine wp_slice hfour ?_
  simp only [wp_setRx]
  refine wp.ite (fun _ => ?_) fun hgood => ?_
  · have hmoves₁ : ∀ n, Moves A E r { r₁ with rx := { r₁.rx with pktLen := n } } :=
      fun n => ⟨hmoves.1, fun htrue => absurd (hlen.symm.trans htrue) (by decide)⟩
    exact fail_moves_unless (hmoves₁ _) (by decide) _ _
  · simp only [badLength, Bool.or_eq_true, decide_eq_true_eq, not_or] at hgood
    refine ⟨⟨hmoves.1, fun _ => ⟨hmoves.1.state_ne_version hstate, ?_⟩⟩, fun _ => ⟨rfl, hsame⟩⟩
    dsimp only
    omega

/-- After `readHeader` returned 1 the length of the packet is known and checked. -/
theorem readHeader_spec (hr : HeaderOk r) (hstate : r.link.conn.state ≠ .version) :
    wp (readHeader E) (fun ret r' => Moves A E r r' ∧
      (ret = 1 → r'.rx.haveLen = true ∧ r'.link.conn.state = r.link.conn.state)) fault r := by
  simp only [readHeader, parseHeader, wp_bind, wp_rx, wp_conn]
  refine wp.ite (fun hlen => ⟨.refl hr, fun _ => ⟨hlen, rfl⟩⟩) fun hlen => ?_
  have hlen : r.rx.haveLen = false := by simpa using hlen
  refine wp.ite (fun _ => ⟨.refl hr, fun h => by simp at h⟩) fun hfirst => ?_
  refine wp.ite (fun hactive => ?_) fun hactive => ?_
  · simp only [firstLen, hactive, if_true, Nat.not_lt] at hfirst
    simp only [wp_bind]
    refine wp.imp (decryptAt_spec (A := A) (E := E) (by omega)) fun ok r₁ h => ?_
    have hmoves : Moves A E r r₁ := ⟨h.1, h.2.header hr⟩
    refine wp.ite (fun _ => fail_moves_unless hmoves (by decide) _ _) fun _ => ?_
    exact checkLength_spec _ hmoves hstate (by rw [h.2.haveLen, hlen]) (by rw [h.2.length]; omega)
      h.2.state
  · simp only [firstLen, hactive, Nat.not_lt] at hfirst
    exact checkLength_spec _ (.refl hr) hstate hlen hfirst rfl

/-- The MAC behind the packet is the right one for the direction it came over. -/
def Verified (E : Env) (r : Receiver) (total : ℕ) : Prop :=
  macOf E r.link.conn.inDir (r.rx.buf.take total) =
    (r.rx.buf.drop total).take r.link.conn.inDir.macLen

theorem SamePacket.trans {r'' : Receiver} (h : SamePacket r r') (h' : SamePacket r' r'') :
    SamePacket r r'' where
  length := h'.length.trans h.length
  haveLen := h'.haveLen.trans h.haveLen
  pktLen := h'.pktLen.trans h.pktLen
  active := h'.active.trans h.active
  macType := h'.macType.trans h.macType
  state := h'.state.trans h.state

/-- After `compareMac` returned 0 the MAC is right and nothing has changed. -/
theorem compareMac_spec (packet mac : Bytes) :
    wp (compareMac E packet mac) (fun ret l' => StepsOf A E l.toSession l'.toSession ∧
      (ret = 0 → l'.toSession = l.toSession ∧ macOf E l.conn.inDir packet = mac)) fault l := by
  have hfail : ∀ (calls : List Call) (msg : String),
      wp (fail E discMacError msg) (fun ret l' => StepsOf A E l.toSession l'.toSession ∧
        (ret = 0 → l'.toSession = l.toSession ∧ macOf E l.conn.inDir packet = mac)) fault
        { l with calls := calls } := by
    intro calls msg
    refine wp.imp (fail_farewell _ _) fun ret l' h =>
      ⟨(StepOf.disconnect h.2).steps, fun hret => ?_⟩
    rw [h.1] at hret
    cases hret
  simp only [compareMac, wp_bind, LinkM.wp_ask]
  refine wp.ite (fun _ => hfail _ _) fun _ => ?_
  simp only [wp_bind, LinkM.wp_conn]
  refine wp.ite (fun _ => hfail _ _) fun hmac => ?_
  exact ⟨.refl _, fun _ => ⟨rfl, not_not.mp hmac⟩⟩

theorem checkPacketMac_spec {d : Dir} {total : ℕ} (hr : HeaderOk r)
    (hd : d.macLen = r.link.conn.inDir.macLen) (hneed : total + d.macLen ≤ r.rx.buf.length) :
    wp (checkPacketMac E d total)
      (fun ret r' => Moves A E r r' ∧ (ret = 0 → SamePacket r r' ∧ Verified E r' total))
      fault r := by
  simp only [checkPacketMac, wp_bind, wp_onLink]
  refine wp_slice (by omega) (wp_slice hneed ?_)
  refine wp.imp (compareMac_spec (A := A) _ _) fun ret l' h => ?_
  refine ⟨⟨h.1, fun hlen => ⟨h.1.state_ne_version (hr hlen).1, (hr hlen).2⟩⟩, fun hret => ?_⟩
  obtain ⟨hsame, hmac⟩ := h.2 hret
  have hconn : l'.conn = r.link.conn := congrArg Session.conn hsame
  refine ⟨⟨rfl, rfl, rfl, ?_, ?_, ?_⟩, ?_⟩
  · rw [hconn]
  · rw [hconn]
  · rw [hconn]
  · rw [Verified, hconn, ← hd]
    exact hmac

/-- After `checkMac` returned 0 the packet is decrypted and verified. -/
theorem checkMac_spec {d : Dir} {total : ℕ} (hr : HeaderOk r)
    (hd : d.macLen = r.link.conn.inDir.macLen) (hneed : total + d.macLen ≤ r.rx.buf.length) :
    wp (checkMac E d total)
      (fun ret r' => Moves A E r r' ∧ (ret = 0 → SamePacket r r' ∧ Verified E r' total))
      fault r := by
  simp only [checkMac]
  refine wp.ite (fun hlong => ?_) fun _ => checkPacketMac_spec hr hd hneed
  simp only [wp_bind]
  refine wp.imp (decryptAt_spec (A := A) (E := E) (by omega)) fun ok r₁ h => ?_
  have hmoves : Moves A E r r₁ := ⟨h.1, h.2.header hr⟩
  refine wp.ite (fun _ => fail_moves_unless hmoves (by decide) _ _) fun _ => ?_
  have hd₁ : d.macLen = r₁.link.conn.inDir.macLen := by
    rw [hd, Dir.macLen, Dir.macLen, h.2.macType]
  refine wp.imp (checkPacketMac_spec (A := A) hmoves.2 hd₁ (h.2.length ▸ hneed)) fun ret r₂ h₂ => ?_
  exact ⟨hmoves.trans h₂.1, fun hret => ⟨h.2.trans (h₂.2 hret).1, (h₂.2 hret).2⟩⟩

theorem dispatch_steps {payload packet mac : Bytes} (hbuf : l.conn.buffers)
    (hclosed : l.conn.state ≠ .closed) (hversion : l.conn.state ≠ .version)
    (hpayload : ∃ len, payload = (packet.drop 5).take len) (hfits : payload.length ≤ sshMaxPacket)
    (hmac : l.conn.inDir.active = true → mac = macOf E l.conn.inDir packet) :
    wp (dispatch (handlePacket E) payload packet mac)
      (fun _ l' => StepsOf A E l.toSession l'.toSession) fault l := by
  simp only [dispatch, wp_bind, LinkM.wp_update, LinkM.wp_record]
  have hcount := (StepOf.decrypt (A := A) (E := E) (s := l.toSession) l.conn.inDir.aes.pos
    (l.conn.inDir.seq + 1)).steps
  have harrives : Arrives E
      ⟨{ l.conn with
          inDir := l.conn.inDir.moved l.conn.inDir.aes.pos (l.conn.inDir.seq + 1) }, l.log⟩
      payload packet mac := by
    refine ⟨hpayload, hfits, fun hactive => ?_, hclosed, hversion⟩
    rw [hmac hactive]
    simp only [Dir.moved, UInt32.add_sub_cancel]
  -- a `KEXINIT` or `NEWKEYS` is one step with what becomes of it
  by_cases hinit : msgOf payload = msgKexinit
  · refine wp.imp (handlePacket_kexInit hversion hinit) fun _ l' hend => ?_
    exact hcount.trans (StepOf.kexInit harrives hinit hend).steps
  by_cases hkeys : msgOf payload = msgNewkeys
  · refine wp.imp (handlePacket_newKeys hversion hkeys) fun _ l' hend => ?_
    exact hcount.trans (StepOf.newKeys harrives hkeys hend).steps
  -- so is a packet that is skipped
  cases hskip : l.conn.discards payload with
  | true =>
      refine wp.imp (handlePacket_skips hskip) fun _ l' h => ?_
      rw [h]
      exact hcount.trans (StepOf.skipGuess harrives hskip).steps
  | false =>
      refine wp.imp (handlePacket_steps (A := A) ⟨_, _, _, _, rfl, rfl, rfl, rfl, rfl⟩ hbuf hclosed
        hversion ⟨hinit, hkeys⟩ hskip) fun _ l' h => ?_
      exact (hcount.trans (StepOf.dispatch _ _ _ harrives ⟨hinit, hkeys⟩ hskip).steps).trans h

theorem finishPacket_moves {total need : ℕ} (hr : Sound r)
    (hclosed : r.link.conn.state ≠ .closed) (htotal : total = 4 + r.rx.pktLen)
    (hlen : r.rx.haveLen = true) (hneed : need = total + trailerLen r.link.conn.inDir)
    (hbuf : need ≤ r.rx.buf.length)
    (hmac : r.link.conn.inDir.active = true → Verified E r total) :
    wp (finishPacket E (handlePacket E) total need) (fun _ r' => Moves A E r r') fault r := by
  obtain ⟨hversion, hfive, hmax, -⟩ := hr.header hlen
  simp only [finishPacket, wp_bind, wp_rx]
  refine wp_slice (by omega) ?_
  refine wp.ite (fun _ => ?_) fun hpad => ?_
  · exact wp.imp (fail_moves (A := A) hr.header _ _) fun _ _ h => h.2
  simp only [wp_bind]
  refine wp_slice (by omega) (wp_slice (by omega) (wp_slice (by omega) ?_))
  rw [wp_onLink]
  refine wp.imp (dispatch_steps (A := A) hr.buffers hclosed hversion ?_ ?_ ?_) fun ret l' h => ?_
  · refine ⟨r.rx.pktLen - 1 - (((r.rx.buf.drop 4).take 1).headD 0).toNat, ?_⟩
    rw [List.drop_zero, List.drop_take, List.take_take, Nat.min_eq_left (by omega)]
  · refine (List.length_take_le _ _).trans ?_
    omega
  · intro hactive
    rw [List.drop_zero, hmac hactive, hneed, trailerLen, if_pos hactive, Nat.add_sub_cancel_left]
  · refine wp_compact hbuf ?_
    simp only [wp_setRx, wp_conn, wp_ite, wp_pure]
    have hmoves : Moves A E r ⟨l', { r.rx with buf := r.rx.buf.drop need, haveLen := false }⟩ :=
      ⟨h, fun hfalse => by cases hfalse⟩
    exact ⟨fun _ => hmoves, fun _ => hmoves⟩

theorem tryBody_moves (hr : Sound r) (hclosed : r.link.conn.state ≠ .closed)
    (hlen : r.rx.haveLen = true) :
    wp (tryBody E (handlePacket E)) (fun _ r' => Moves A E r r') fault r := by
  simp only [tryBody, completePacket, wp_bind, wp_conn, wp_rx]
  refine wp.ite (fun _ => .refl hr.header) fun hneed => ?_
  rw [Nat.not_lt] at hneed
  refine wp.ite (fun hactive => ?_) fun hactive => ?_
  · rw [trailerLen, if_pos hactive] at hneed
    simp only [wp_bind]
    refine wp.imp (checkMac_spec (A := A) hr.header rfl hneed) fun ret r₁ h => ?_
    refine wp.ite (fun _ => h.1) fun hzero => ?_
    obtain ⟨hsame, hmac⟩ := h.2 (not_not.mp hzero)
    refine wp.imp (finishPacket_moves (A := A) (h.1.sound hr) ?_ ?_ ?_ ?_ ?_ fun _ => hmac)
      fun _ _ h' => ?_
    · rw [hsame.state]
      exact hclosed
    · rw [hsame.pktLen]
    · rw [hsame.haveLen, hlen]
    · rw [trailerLen, trailerLen, hsame.active, Dir.macLen, Dir.macLen, hsame.macType]
    · rw [trailerLen, if_pos hactive, hsame.length]
      exact hneed
    · exact h.1.trans h'
  · refine finishPacket_moves hr hclosed rfl hlen rfl hneed fun h => ?_
    exact absurd h hactive

theorem tryPacket_moves (hr : Sound r) (hclosed : r.link.conn.state ≠ .closed)
    (hstate : r.link.conn.state ≠ .version) :
    wp (tryPacket E (handlePacket E)) (fun _ r' => Moves A E r r') fault r := by
  simp only [tryPacket, wp_bind]
  refine wp.imp (readHeader_spec (A := A) hr.header hstate) fun header r₁ h => ?_
  refine wp.ite (fun _ => h.1) fun hone => ?_
  obtain ⟨hlen, hsame⟩ := h.2 (not_not.mp hone)
  refine wp.imp (tryBody_moves (A := A) (h.1.sound hr) (hsame ▸ hclosed) hlen) fun _ _ h' => ?_
  exact h.1.trans h'

/-- Only the version line can fault. -/
theorem tryProcessOne_moves (hr : Sound r)
    (hfault : r.link.conn.state = .version → fault .versionOverflow) :
    wp (tryProcessOne E) (fun _ r' => Moves A E r r') fault r := by
  simp only [tryProcessOne, tryProcessOneWith, wp_bind, wp_conn]
  refine wp.ite (fun _ => .refl hr.header) fun hclosed => ?_
  refine wp.ite (fun hstate => ?_) fun hstate => tryPacket_moves hr hclosed hstate
  refine (tryVersionLine_moves hr.header hstate).mono (fun _ _ h => h) ?_
  rintro f rfl
  exact hfault hstate

/-! ## `ProcessInput` -/

variable {s : Server}

@[simp] theorem wp_onRecv {α : Type} {m : RecvM α} {post : α → Server → Prop} :
    wp (onRecv m) post fault =
      fun s => wp m (fun a r => post a { s with toReceiver := r }) fault s.toReceiver := by
  simp only [onRecv, wp_zoom]

namespace ServerM

@[simp] theorem wp_onLink {α : Type} {m : LinkM α} {post : α → Server → Prop} :
    wp (onLink m) post fault =
      fun s => wp m (fun a l => post a { s with link := l }) fault s.link := by
  simp only [onLink, wp_onRecv, RecvM.wp_onLink]

@[simp] theorem wp_conn {post : Conn → Server → Prop} :
    wp conn post fault = fun s => post s.link.conn s :=
  rfl

/-- A program of the link moves the server. -/
theorem onLink_moves {α : Type} {m : LinkM α} (hs : HeaderOk s.toReceiver)
    (h : wp m (fun _ l' => StepsOf A E s.link.toSession l'.toSession) fault s.link) :
    wp (onLink m) (fun _ s' => Moves A E s.toReceiver s'.toReceiver) fault s := by
  rw [wp_onLink]
  exact wp.imp h fun _ _ hsteps => ⟨hsteps, fun hlen =>
    ⟨hsteps.state_ne_version (hs hlen).1, (hs hlen).2⟩⟩

end ServerM

theorem rd_frame (max : ℕ) :
    wp (rd max) (fun _ s' => s'.toReceiver = s.toReceiver) fault s := by
  rcases hinput : s.input with _ | ⟨b | _, rest⟩
  · simp only [wp, rd, hinput]
  · by_cases hfits : b.length ≤ max <;> simp only [wp, rd, hinput, hfits, if_true, if_false]
  · simp only [wp, rd, hinput]

theorem receive_moves (hs : HeaderOk s.toReceiver) :
    wp receive (fun _ s' => Moves A E s.toReceiver s'.toReceiver) fault s := by
  simp only [receive, wp_bind, wp_onRecv, wp_rx]
  refine wp.ite (fun _ => ?_) fun _ => .refl hs
  simp only [wp_bind]
  refine wp.imp (rd_frame _) fun b s₁ heq => ?_
  rw [← heq] at hs ⊢
  split
  · simp only [wp_bind, ServerM.wp_onLink, LinkM.wp_update, wp_pure]
    exact ⟨StepOf.close.steps, fun hlen => ⟨by simp, (hs hlen).2⟩⟩
  · simp only [wp_bind, wp_onRecv, wp_setRx, wp_pure]
    refine ⟨.refl _, fun hlen => ⟨(hs hlen).1, (hs hlen).2.1, (hs hlen).2.2.1, ?_⟩⟩
    rw [List.length_append]
    exact Nat.le_add_right_of_le (hs hlen).2.2.2

/-- A receiver in the version exchange was there before. -/
theorem Moves.state_version (h : Moves A E r r') (hstate : r'.link.conn.state = .version) :
    r.link.conn.state = .version := by
  by_contra hne
  exact h.1.state_ne_version hne hstate

theorem processAll_moves (rounds : ℕ) (any : Bool) (hr : Sound r)
    (hfault : r.link.conn.state = .version → fault .versionOverflow) :
    wp (processAll E rounds any) (fun _ r' => Moves A E r r') fault r := by
  induction rounds generalizing r any with
  | zero => exact .refl hr.header
  | succ rounds ih =>
      simp only [processAll, wp_bind]
      refine wp.imp (tryProcessOne_moves (A := A) hr hfault) fun ret r₁ h => ?_
      refine wp.ite (fun _ => h) fun _ => ?_
      refine wp.ite (fun _ => h) fun _ => ?_
      exact wp.imp (ih true (h.sound hr) fun hv => hfault (h.state_version hv)) fun _ _ h' =>
        h.trans h'

theorem processRounds_moves (rounds : ℕ) (progressed : Bool) (hs : Sound s.toReceiver)
    (hfault : s.link.conn.state = .version → fault .versionOverflow) :
    wp (processRounds E rounds progressed) (fun _ s' => Moves A E s.toReceiver s'.toReceiver)
      fault s := by
  induction rounds generalizing s progressed with
  | zero => exact .refl hs.header
  | succ rounds ih =>
      simp only [processRounds, wp_bind, ServerM.wp_conn]
      refine wp.ite (fun _ => .refl hs.header) fun _ => ?_
      simp only [wp_bind]
      refine wp.imp (receive_moves (A := A) (E := E) hs.header) fun got s₁ h₁ => ?_
      split
      · simp only [wp_bind, wp_onRecv, wp_rx]
        refine wp.imp (processAll_moves (A := A) _ _ (h₁.sound hs) fun hv =>
          hfault (h₁.state_version hv)) fun any r₂ h₂ => ?_
        have h₂ := h₁.trans h₂
        split
        · refine wp.ite (fun _ => ?_) fun _ => h₂
          refine wp.imp (ih true ?_ fun hv => hfault (h₂.state_version hv)) fun _ _ h₃ =>
            h₂.trans h₃
          exact h₂.sound hs
        · exact h₂
      · exact h₁

/-- What reading and handling a packet keep, `ProcessInput` keeps. -/
theorem processInput_keeps {I : Server → Prop}
    (hreceive : ∀ s, I s → wp receive (fun _ s' => I s') fault s)
    (htry : ∀ s, I s →
      wp (tryProcessOne E) (fun _ r' => I { s with toReceiver := r' }) fault s.toReceiver)
    (hs : I s) : wp (processInput E) (fun _ s' => I s') fault s := by
  have hall : ∀ (rounds : ℕ) (any : Bool) (s : Server), I s →
      wp (processAll E rounds any) (fun _ r' => I { s with toReceiver := r' }) fault
        s.toReceiver := by
    intro rounds
    induction rounds with
    | zero => exact fun any s hs => hs
    | succ rounds ih =>
        intro any s hs
        simp only [processAll, wp_bind]
        refine wp.imp (htry s hs) fun ret r₁ h₁ => ?_
        refine wp.ite (fun _ => h₁) fun _ => ?_
        exact wp.ite (fun _ => h₁) fun _ => ih true { s with toReceiver := r₁ } h₁
  have hrounds : ∀ (rounds : ℕ) (progressed : Bool) (s : Server), I s →
      wp (processRounds E rounds progressed) (fun _ s' => I s') fault s := by
    intro rounds
    induction rounds with
    | zero => exact fun progressed s hs => hs
    | succ rounds ih =>
        intro progressed s hs
        simp only [processRounds, wp_bind, ServerM.wp_conn]
        refine wp.ite (fun _ => hs) fun _ => ?_
        simp only [wp_bind]
        refine wp.imp (hreceive s hs) fun got s₁ h₁ => ?_
        split
        · simp only [wp_bind, wp_onRecv, wp_rx]
          refine wp.imp (hall _ _ s₁ h₁) fun any r₂ h₂ => ?_
          split
          · exact wp.ite (fun _ => ih true _ h₂) fun _ => h₂
          · exact h₂
        · exact h₁
  simp only [processInput, wp_bind, wp_get]
  exact hrounds _ _ s hs

theorem processInput_moves (hs : Sound s.toReceiver)
    (hfault : s.link.conn.state = .version → fault .versionOverflow) :
    wp (processInput E) (fun _ s' => Moves A E s.toReceiver s'.toReceiver) fault s := by
  simp only [processInput, wp_bind, wp_get]
  exact processRounds_moves _ _ hs hfault

end EfiSshServer
