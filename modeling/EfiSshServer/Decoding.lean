import EfiSshServer.Lib.Incremental
import EfiSshServer.Scenario

/-!
# `TryProcessOne` as an incremental decoder

Bytes that arrive later are appended to the receive buffer.  What a call of
`TryProcessOne` has done with the bytes before it does not depend on them: the
accesses stay in front (`Commutes`), and the only tests that see the end of the
buffer are the two that ask for more input.  These are the laws of
`IncrementalDecoder.Decoder`.
-/

namespace EfiSshServer

open StateProgram RecvM IncrementalDecoder

variable {E : Env} {r r' : Receiver} {handle : Bytes → LinkM Int}

/-- More bytes arrive. -/
def Receiver.feed (y : Bytes) (r : Receiver) : Receiver :=
  { r with rx := { r.rx with buf := r.rx.buf ++ y } }

@[simp] theorem Receiver.feed_link (y : Bytes) (r : Receiver) : (r.feed y).link = r.link := rfl

@[simp] theorem Receiver.feed_buf (y : Bytes) (r : Receiver) :
    (r.feed y).rx.buf = r.rx.buf ++ y :=
  rfl

theorem Receiver.feed_nil (r : Receiver) : r.feed [] = r := by
  simp [Receiver.feed]

theorem Receiver.feed_feed (x y : Bytes) (r : Receiver) : (r.feed x).feed y = r.feed (x ++ y) := by
  simp [Receiver.feed]

/-! ## Programs that do not see what arrives later -/

section Commutes

variable {y : Bytes}

theorem onLink_commutes {α : Type} (m : LinkM α) : Commutes (Receiver.feed y) (onLink m) :=
  .zoom (f := Receiver.feed y) Receiver.link (fun l r => { r with link := l }) (fun _ => rfl)
    (fun _ _ => rfl) m

theorem conn_commutes : Commutes (Receiver.feed y) RecvM.conn :=
  onLink_commutes LinkM.conn

/-- A slice does not see what is appended behind it. -/
theorem slice_append {b : Bytes} {off len : ℕ} (hrange : off + len ≤ b.length) :
    ((b ++ y).drop off).take len = (b.drop off).take len := by
  rw [List.drop_append_of_le_length (by omega), List.take_append_of_le_length (by simp; omega)]

theorem slice_commutes (off len : ℕ) : Commutes (Receiver.feed y) (slice off len) := by
  intro r a r' h
  unfold slice at h ⊢
  split at h
  · next hrange =>
      cases h
      rw [if_pos (by simp; omega), Receiver.feed_buf, slice_append hrange]
  · cases h

theorem compact_commutes (n : ℕ) : Commutes (Receiver.feed y) (compact n) := by
  intro r a r' h
  unfold compact at h ⊢
  split at h
  · next hrange =>
      cases h
      rw [if_pos (by simp; omega), Receiver.feed_buf, List.drop_append_of_le_length hrange]
      rfl
  · cases h

theorem setRx_commutes {f : Rx → Rx}
    (hf : ∀ x : Rx, f { x with buf := x.buf ++ y } = { f x with buf := (f x).buf ++ y }) :
    Commutes (Receiver.feed y) (setRx f) := by
  intro r a r' h
  cases h
  simp only [setRx, Receiver.feed, hf]

theorem rx_bind_commutes {α : Type} {k : Rx → RecvM α}
    (hk : ∀ x : Rx, k { x with buf := x.buf ++ y } = k x)
    (hcomm : ∀ x, Commutes (Receiver.feed y) (k x)) :
    Commutes (Receiver.feed y) (RecvM.rx >>= k) := by
  intro r a r' h
  have hrun : k r.rx (r.feed y) = .ok (a, r'.feed y) := hcomm r.rx r a r' h
  rw [← hk r.rx] at hrun
  exact hrun

/-- Decryption in place, once the bytes are known to be there. -/
theorem decryptAt_eq {off len : ℕ} (hrange : off + len ≤ r.rx.buf.length) :
    decryptAt E off len r =
      (decipher E ((r.rx.buf.drop off).take len) r.link).map fun out =>
        match out.1 with
        | some plain => (true, ⟨out.2, { r.rx with
            buf := r.rx.buf.take off ++ plain ++ r.rx.buf.drop (off + len) }⟩)
        | none => (false, ⟨out.2, r.rx⟩) := by
  have hslice : slice off len r = .ok ((r.rx.buf.drop off).take len, r) := if_pos hrange
  simp only [decryptAt, bind, StateT.bind, Except.bind, hslice, onLink, zoom]
  cases decipher E ((r.rx.buf.drop off).take len) r.link with
  | error e => rfl
  | ok out =>
      rcases out with ⟨_ | plain, l⟩
      · rfl
      · rfl

theorem decryptAt_commutes (off len : ℕ) : Commutes (Receiver.feed y) (decryptAt E off len) := by
  intro r a r' h
  by_cases hrange : off + len ≤ r.rx.buf.length
  · rw [decryptAt_eq hrange] at h
    rw [decryptAt_eq (by rw [Receiver.feed_buf, List.length_append]; omega), Receiver.feed_buf,
      Receiver.feed_link, slice_append hrange, List.drop_append_of_le_length hrange,
      List.take_append_of_le_length (show off ≤ r.rx.buf.length by omega)]
    cases hrun : decipher E ((r.rx.buf.drop off).take len) r.link with
    | error e => rw [hrun] at h; cases h
    | ok out =>
        rcases out with ⟨_ | plain, l⟩ <;> rw [hrun] at h <;> cases h
        · rfl
        · simp [Except.map, Receiver.feed]
  · have hslice : slice off len r = .error .outOfRange := if_neg hrange
    simp only [decryptAt, bind, StateT.bind, Except.bind, hslice] at h
    cases h

theorem checkLength_commutes (d : Dir) : Commutes (Receiver.feed y) (checkLength E d) := by
  refine .bind (slice_commutes 0 4) fun b => .bind (setRx_commutes fun _ => rfl) fun _ => ?_
  exact .ite (onLink_commutes _) (.bind (setRx_commutes fun _ => rfl) fun _ => .pure _)

theorem parseHeader_commutes (d : Dir) : Commutes (Receiver.feed y) (parseHeader E d) := by
  exact .ite (.bind (decryptAt_commutes 0 16) fun _ => .ite (onLink_commutes _)
    (checkLength_commutes d)) (checkLength_commutes d)

theorem checkPacketMac_commutes (d : Dir) (total : ℕ) :
    Commutes (Receiver.feed y) (checkPacketMac E d total) :=
  .bind (slice_commutes _ _) fun _ => .bind (slice_commutes _ _) fun _ => onLink_commutes _

theorem checkMac_commutes (d : Dir) (total : ℕ) :
    Commutes (Receiver.feed y) (checkMac E d total) := by
  exact .ite (.bind (decryptAt_commutes _ _) fun _ => .ite (onLink_commutes _)
    (checkPacketMac_commutes d total)) (checkPacketMac_commutes d total)

theorem finishPacket_commutes (total need : ℕ) :
    Commutes (Receiver.feed y) (finishPacket E handle total need) := by
  refine rx_bind_commutes (fun _ => rfl) fun x => .bind (slice_commutes 4 1) fun pad => ?_
  refine .ite (onLink_commutes _) ?_
  refine .bind (slice_commutes _ _) fun _ => .bind (slice_commutes _ _) fun _ => ?_
  refine .bind (slice_commutes _ _) fun _ => .bind (onLink_commutes _) fun _ => ?_
  refine .bind (compact_commutes _) fun _ => .bind (setRx_commutes fun _ => rfl) fun _ => ?_
  exact .bind conn_commutes fun _ => .ite (.pure _) (.pure _)

theorem completePacket_commutes (d : Dir) (total need : ℕ) :
    Commutes (Receiver.feed y) (completePacket E handle d total need) :=
  .ite (.bind (checkMac_commutes d total) fun _ => .ite (.pure _) (finishPacket_commutes _ _))
    (finishPacket_commutes _ _)

end Commutes

/-! ## Progress -/

/-- A call that got on: a packet is used up and the connection is still open, or
-1 is returned after a disconnect or with a packet used up. -/
inductive Progress (r : Receiver) : Int → Receiver → Prop
  | packet {r' : Receiver} (hopen : r'.link.conn.state ≠ .closed)
      (hlength : r'.rx.buf.length < r.rx.buf.length) : Progress r 1 r'
  | ended {r' : Receiver}
      (h : r'.link.conn.state = .closed ∨ r'.rx.buf.length < r.rx.buf.length) : Progress r (-1) r'

theorem Progress.ret_ne_zero {ret : Int} (h : Progress r ret r') : ret ≠ 0 := by
  cases h <;> decide

theorem Progress.closed_or_shorter {ret : Int} (h : Progress r ret r') :
    r'.link.conn.state = .closed ∨ r'.rx.buf.length < r.rx.buf.length := by
  cases h with
  | packet _ hlength => exact .inr hlength
  | ended h => exact h

/-- Any fault is allowed. -/
def anyFault : Fault → Prop := fun _ => True

theorem fail_progress {r₁ : Receiver} (reason : UInt32) (msg : String) :
    wp (onLink (fail E reason msg)) (Progress r) anyFault r₁ := by
  rw [wp_onLink]
  refine wp.imp (fail_farewell reason msg) fun ret l' h => ?_
  rw [h.1]
  exact .ended (.inl h.2.closed)

theorem wp_slice_any {post : Bytes → Receiver → Prop} {off len : ℕ}
    (h : post ((r.rx.buf.drop off).take len) r) : wp (slice off len) post anyFault r := by
  by_cases hrange : off + len ≤ r.rx.buf.length
  · exact wp_slice hrange h
  · simp [wp, slice, hrange, anyFault]

theorem decryptAt_length (off len : ℕ) :
    wp (decryptAt E off len) (fun _ r' => r'.rx.buf.length = r.rx.buf.length) anyFault r := by
  by_cases hrange : off + len ≤ r.rx.buf.length
  · exact wp.imp (decryptAt_spec (A := True) (E := E) hrange) fun _ _ h => h.2.length
  · simp [wp, decryptAt, slice, hrange, anyFault, bind, StateT.bind, Except.bind]

theorem compareMac_closed (packet mac : Bytes) {l : Link} :
    wp (compareMac E packet mac) (fun ret l' => ret ≠ 0 → l'.conn.state = .closed) anyFault l := by
  simp only [compareMac, wp_bind, LinkM.wp_ask]
  have hfail : ∀ (calls : List Call) (msg : String), wp (fail E discMacError msg)
      (fun ret l' => ret ≠ 0 → l'.conn.state = .closed) anyFault { l with calls := calls } :=
    fun calls msg => wp.imp (fail_farewell _ _) fun _ _ h _ => h.2.closed
  refine wp.ite (fun _ => hfail _ _) fun _ => ?_
  simp only [wp_bind, LinkM.wp_conn]
  exact wp.ite (fun _ => hfail _ _) fun _ h => absurd rfl h

theorem checkMac_progress (d : Dir) (total : ℕ) :
    wp (checkMac E d total) (fun ret r' => (ret ≠ 0 → r'.link.conn.state = .closed) ∧
      r'.rx.buf.length = r.rx.buf.length) anyFault r := by
  have hcheck : ∀ r₁ : Receiver, r₁.rx.buf.length = r.rx.buf.length →
      wp (checkPacketMac E d total) (fun ret r' => (ret ≠ 0 → r'.link.conn.state = .closed) ∧
        r'.rx.buf.length = r.rx.buf.length) anyFault r₁ := by
    intro r₁ hlength
    simp only [checkPacketMac, wp_bind, wp_onLink]
    refine wp_slice_any (wp_slice_any (wp.imp (compareMac_closed _ _) fun _ _ h => ⟨h, hlength⟩))
  simp only [checkMac]
  refine wp.ite (fun _ => ?_) fun _ => hcheck r rfl
  simp only [wp_bind]
  refine wp.imp (decryptAt_length (E := E) _ _) fun ok r₁ hlength => ?_
  refine wp.ite (fun _ => ?_) fun _ => hcheck r₁ hlength
  rw [wp_onLink]
  exact wp.imp (fail_farewell _ _) fun _ _ h => ⟨fun _ => h.2.closed, hlength⟩

theorem finishPacket_progress {r₁ : Receiver} {total need : ℕ} (hneed : 0 < need)
    (hbuf : need ≤ r.rx.buf.length) (hlength : r₁.rx.buf.length = r.rx.buf.length) :
    wp (finishPacket E handle total need) (Progress r) anyFault r₁ := by
  simp only [finishPacket, wp_bind, wp_rx]
  refine wp_slice_any (wp.ite (fun _ => fail_progress _ _) fun _ => ?_)
  simp only [wp_bind, wp_onLink]
  refine wp_slice_any (wp_slice_any (wp_slice_any (wp.imp wp.trivial fun ret l' _ => ?_)))
  refine wp_compact (hlength ▸ hbuf) ?_
  simp only [wp_setRx, wp_conn, wp_ite, wp_pure]
  have hshorter : (r₁.rx.buf.drop need).length < r.rx.buf.length := by
    rw [List.length_drop]
    omega
  exact ⟨fun _ => .ended (.inr hshorter), fun hgo => .packet (not_or.mp hgo).2 hshorter⟩

theorem completePacket_progress {d : Dir} {total need : ℕ} (hneed : 0 < need)
    (hbuf : need ≤ r.rx.buf.length) :
    wp (completePacket E handle d total need) (Progress r) anyFault r := by
  simp only [completePacket]
  refine wp.ite (fun _ => ?_) fun _ => finishPacket_progress hneed hbuf rfl
  simp only [wp_bind]
  refine wp.imp (checkMac_progress (E := E) d total) fun ret r₁ h => ?_
  refine wp.ite (fun hret => .ended (.inl (h.1 hret))) fun _ => ?_
  exact finishPacket_progress hneed hbuf h.2

/-- The header is known, and nothing else that matters has changed. -/
def HeaderRead (r : Receiver) (ret : Int) (r' : Receiver) : Prop :=
  ret = 1 ∧ r'.rx.haveLen = true ∧ r'.link.conn.state = r.link.conn.state ∧
    r'.rx.buf.length = r.rx.buf.length

theorem checkLength_cases {r₁ : Receiver} (d : Dir)
    (hstate : r₁.link.conn.state = r.link.conn.state)
    (hlength : r₁.rx.buf.length = r.rx.buf.length) :
    wp (checkLength E d) (fun ret r' => HeaderRead r ret r' ∨
      ret = -1 ∧ r'.link.conn.state = .closed) anyFault r₁ := by
  simp only [checkLength, wp_bind]
  refine wp_slice_any ?_
  simp only [wp_setRx]
  refine wp.ite (fun _ => ?_) fun _ => .inl ⟨rfl, rfl, hstate, hlength⟩
  rw [wp_onLink]
  exact wp.imp (fail_farewell _ _) fun _ _ h => .inr ⟨h.1, h.2.closed⟩

/-- Parsing a header succeeds or closes the connection. -/
theorem parseHeader_cases (d : Dir) (hbuf : firstLen d ≤ r.rx.buf.length) :
    wp (parseHeader E d) (fun ret r' => HeaderRead r ret r' ∨
      ret = -1 ∧ r'.link.conn.state = .closed) anyFault r := by
  simp only [parseHeader]
  refine wp.ite (fun hactive => ?_) fun _ => checkLength_cases d rfl rfl
  rw [firstLen, if_pos hactive] at hbuf
  simp only [wp_bind]
  refine wp.imp (decryptAt_spec (A := True) (E := E) (by omega)) fun ok r₁ h => ?_
  refine wp.ite (fun _ => ?_) fun _ => checkLength_cases d h.2.state h.2.length
  rw [wp_onLink]
  exact wp.imp (fail_farewell _ _) fun _ _ h => .inr ⟨h.1, h.2.closed⟩

/-! ## The laws -/

/-- One call of the part of `TryProcessOne` behind the version exchange: what it
asks of the buffer and what it does then. -/
inductive Attempt (E : Env) (handle : Bytes → LinkM Int) (r : Receiver) : Int → Receiver → Prop
  | short (hlen : r.rx.haveLen = false)
      (hbuf : r.rx.buf.length < firstLen r.link.conn.inDir) : Attempt E handle r 0 r
  | badHeader {r₁ : Receiver} (hlen : r.rx.haveLen = false)
      (hbuf : firstLen r.link.conn.inDir ≤ r.rx.buf.length)
      (hrun : parseHeader E r.link.conn.inDir r = .ok (-1, r₁))
      (hclosed : r₁.link.conn.state = .closed) : Attempt E handle r (-1) r₁
  | header {r₁ r' : Receiver} {ret : Int} (hlen : r.rx.haveLen = false)
      (hbuf : firstLen r.link.conn.inDir ≤ r.rx.buf.length)
      (hrun : parseHeader E r.link.conn.inDir r = .ok (1, r₁)) (hread : HeaderRead r 1 r₁)
      (hbody : tryBody E handle r₁ = .ok (ret, r')) : Attempt E handle r ret r'
  | body {r' : Receiver} {ret : Int} (hlen : r.rx.haveLen = true)
      (hbody : tryBody E handle r = .ok (ret, r')) : Attempt E handle r ret r'

theorem readHeader_eq : readHeader E r =
    if r.rx.haveLen = true then .ok (1, r)
    else if r.rx.buf.length < firstLen r.link.conn.inDir then .ok (0, r)
    else parseHeader E r.link.conn.inDir r := by
  show (if r.rx.haveLen = true then pure 1
    else if r.rx.buf.length < firstLen r.link.conn.inDir then pure 0
    else parseHeader E r.link.conn.inDir : RecvM Int) r = _
  split
  · rfl
  · split <;> rfl

theorem tryPacket_attempt {ret : Int} (h : tryPacket E handle r = .ok (ret, r')) :
    Attempt E handle r ret r' := by
  unfold tryPacket at h
  cases hlen : r.rx.haveLen with
  | true =>
      rw [bind_ok (by rw [readHeader_eq, if_pos hlen])] at h
      exact .body hlen h
  | false =>
      have hlen' : ¬ r.rx.haveLen = true := by simp [hlen]
      by_cases hbuf : r.rx.buf.length < firstLen r.link.conn.inDir
      · rw [bind_ok (by rw [readHeader_eq, if_neg hlen', if_pos hbuf])] at h
        cases h
        exact .short hlen hbuf
      · have hparse : readHeader E r = parseHeader E r.link.conn.inDir r := by
          rw [readHeader_eq, if_neg hlen', if_neg hbuf]
        rw [Nat.not_lt] at hbuf
        cases hrun : parseHeader E r.link.conn.inDir r with
        | error e =>
            rw [bind_error (hparse.trans hrun)] at h
            cases h
        | ok out =>
            obtain ⟨header, r₁⟩ := out
            rw [bind_ok (hparse.trans hrun)] at h
            rcases (parseHeader_cases (E := E) _ hbuf).ok hrun with hread | ⟨rfl, hclosed⟩
            · obtain ⟨rfl, -⟩ := id hread
              exact .header hlen hbuf hrun hread h
            · cases h
              exact .badHeader hlen hbuf hrun hclosed

theorem tryPacket_of_haveLen (hlen : r.rx.haveLen = true) :
    tryPacket E handle r = tryBody E handle r := by
  unfold tryPacket
  rw [bind_ok (by rw [readHeader_eq, if_pos hlen])]
  rfl

theorem tryPacket_of_header {header : Int} {r₁ : Receiver} (hlen : r.rx.haveLen = false)
    (hbuf : firstLen r.link.conn.inDir ≤ r.rx.buf.length)
    (hrun : parseHeader E r.link.conn.inDir r = .ok (header, r₁)) :
    tryPacket E handle r = if header = 1 then tryBody E handle r₁ else .ok (header, r₁) := by
  have hparse : readHeader E r = .ok (header, r₁) := by
    rw [readHeader_eq, if_neg (by simp [hlen]), if_neg (Nat.not_lt.mpr hbuf), hrun]
  unfold tryPacket
  rw [bind_ok hparse]
  by_cases hone : header = 1 <;> simp only [hone, ne_eq, not_true, not_false_iff, if_true, if_false]
  rfl

/-- The length a packet needs in the buffer. -/
def needOf (r : Receiver) : ℕ := 4 + r.rx.pktLen + trailerLen r.link.conn.inDir

theorem tryBody_eq : tryBody E handle r =
    if r.rx.buf.length < needOf r then .ok (0, r)
    else completePacket E handle r.link.conn.inDir (4 + r.rx.pktLen) (needOf r) r := by
  show (if r.rx.buf.length < needOf r then pure 0
    else completePacket E handle r.link.conn.inDir (4 + r.rx.pktLen) (needOf r) : RecvM Int) r = _
  split <;> rfl

/-- `tryBody` waits without doing anything, or gets on. -/
theorem tryBody_cases {ret : Int} (h : tryBody E handle r = .ok (ret, r')) :
    (ret = 0 ∧ r' = r ∧ r.rx.buf.length < needOf r) ∨
      (Progress r ret r' ∧ needOf r ≤ r.rx.buf.length) := by
  rw [tryBody_eq] at h
  split at h
  · next hshort =>
      cases h
      exact .inl ⟨rfl, rfl, hshort⟩
  · next hbuf =>
      rw [Nat.not_lt] at hbuf
      have hneed : 0 < needOf r := by
        unfold needOf
        omega
      exact .inr ⟨(completePacket_progress hneed hbuf).ok h, hbuf⟩

/-- What `tryBody` does with a complete packet it does whatever follows. -/
theorem tryBody_feed {ret : Int} (h : tryBody E handle r = .ok (ret, r')) (hret : ret ≠ 0)
    (y : Bytes) : tryBody E handle (r.feed y) = .ok (ret, r'.feed y) := by
  obtain ⟨rfl, -⟩ | ⟨-, hbuf⟩ := tryBody_cases h
  · exact absurd rfl hret
  · rw [tryBody_eq, if_neg (Nat.not_lt.mpr hbuf)] at h
    have hmore : ¬ (r.feed y).rx.buf.length < needOf (r.feed y) := by
      rw [Receiver.feed_buf, List.length_append, show needOf (r.feed y) = needOf r from rfl]
      omega
    rw [tryBody_eq, if_neg hmore]
    exact completePacket_commutes _ _ _ _ _ _ h

/-- The first bytes of a packet are parsed whatever follows. -/
theorem parseHeader_feed {ret : Int} (hbuf : firstLen r.link.conn.inDir ≤ r.rx.buf.length)
    (h : parseHeader E r.link.conn.inDir r = .ok (ret, r')) (y : Bytes) :
    firstLen (r.feed y).link.conn.inDir ≤ (r.feed y).rx.buf.length ∧
      parseHeader E (r.feed y).link.conn.inDir (r.feed y) = .ok (ret, r'.feed y) := by
  refine ⟨?_, parseHeader_commutes _ _ _ _ h⟩
  rw [Receiver.feed_buf, List.length_append, Receiver.feed_link]
  omega

/-- Progress made on the bytes at hand is progress whatever follows. -/
theorem tryPacket_feed {ret : Int} (h : tryPacket E handle r = .ok (ret, r')) (hret : ret ≠ 0)
    (y : Bytes) : tryPacket E handle (r.feed y) = .ok (ret, r'.feed y) := by
  cases tryPacket_attempt h with
  | short => exact absurd rfl hret
  | badHeader hlen hbuf hrun hclosed =>
      obtain ⟨hbuf, hrun⟩ := parseHeader_feed hbuf hrun y
      rw [tryPacket_of_header (r := r.feed y) hlen hbuf hrun]
      rfl
  | header hlen hbuf hrun hread hbody =>
      obtain ⟨hbuf, hrun⟩ := parseHeader_feed hbuf hrun y
      rw [tryPacket_of_header (r := r.feed y) hlen hbuf hrun, if_pos rfl]
      exact tryBody_feed hbody hret y
  | body hlen hbody =>
      rw [tryPacket_of_haveLen (show (r.feed y).rx.haveLen = true from hlen)]
      exact tryBody_feed hbody hret y

/-- A call that asks for more has done what the call on the longer input would have
done first. -/
theorem tryPacket_resume (h : tryPacket E handle r = .ok (0, r')) (y : Bytes) :
    tryPacket E handle (r.feed y) = tryPacket E handle (r'.feed y) ∧
      r'.link.conn.state = r.link.conn.state ∧ r'.rx.buf.length = r.rx.buf.length := by
  cases tryPacket_attempt h with
  | short => exact ⟨rfl, rfl, rfl⟩
  | @header r₁ _ _ hlen hbuf hrun hread hbody =>
      obtain ⟨hbuf, hrun⟩ := parseHeader_feed hbuf hrun y
      obtain ⟨-, rfl, -⟩ | ⟨hprogress, -⟩ := tryBody_cases hbody
      · rw [tryPacket_of_header (r := r.feed y) hlen hbuf hrun, if_pos rfl, tryPacket_of_haveLen]
        · exact ⟨rfl, hread.2.2⟩
        · exact hread.2.1
      · exact absurd rfl hprogress.ret_ne_zero
  | body hlen hbody =>
      obtain ⟨-, rfl, -⟩ | ⟨hprogress, -⟩ := tryBody_cases hbody
      · exact ⟨rfl, rfl, rfl⟩
      · exact absurd rfl hprogress.ret_ne_zero

theorem tryPacket_progress {ret : Int} (h : tryPacket E handle r = .ok (ret, r'))
    (hret : ret ≠ 0) : Progress r ret r' := by
  cases tryPacket_attempt h with
  | short => exact absurd rfl hret
  | badHeader hlen hbuf hrun hclosed => exact .ended (.inl hclosed)
  | header hlen hbuf hrun hread hbody =>
      obtain ⟨rfl, -⟩ | ⟨hprogress, -⟩ := tryBody_cases hbody
      · exact absurd rfl hret
      · have hlength := hread.2.2.2
        cases hprogress with
        | packet hopen hshorter => exact .packet hopen (hlength ▸ hshorter)
        | ended h => exact .ended (hlength ▸ h)
  | body hlen hbody =>
      obtain ⟨rfl, -⟩ | ⟨hprogress, -⟩ := tryBody_cases hbody
      · exact absurd rfl hret
      · exact hprogress

/-- A call asks for more only while the buffer has room: no packet is longer. -/
theorem tryPacket_room (hr : HeaderOk r') (h : tryPacket E handle r = .ok (0, r')) :
    r'.rx.buf.length < sshRxBuf := by
  have hfirst : ∀ d, firstLen d < sshRxBuf := by
    intro d
    unfold firstLen
    split <;> decide
  have htrailer : ∀ d, trailerLen d ≤ 64 := by
    intro d
    unfold trailerLen Dir.macLen
    split
    · cases d.macType <;> decide
    · decide
  have hneed : ∀ {r : Receiver}, r.rx.pktLen ≤ sshMaxPacket - 4 → needOf r < sshRxBuf := by
    intro r hmax
    have hmac := htrailer r.link.conn.inDir
    simp only [needOf, sshRxBuf, sshMaxPacket] at hmax ⊢
    omega
  cases tryPacket_attempt h with
  | short hlen hbuf => exact hbuf.trans (hfirst _)
  | header hlen hbuf hrun hread hbody =>
      obtain ⟨-, rfl, hshort⟩ | ⟨hprogress, -⟩ := tryBody_cases hbody
      · exact hshort.trans (hneed (hr hread.2.1).2.2.1)
      · exact absurd rfl hprogress.ret_ne_zero
  | body hlen hbody =>
      obtain ⟨-, rfl, hshort⟩ | ⟨hprogress, -⟩ := tryBody_cases hbody
      · exact hshort.trans (hneed (hr hlen).2.2.1)
      · exact absurd rfl hprogress.ret_ne_zero

end EfiSshServer
