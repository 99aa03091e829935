import EfiSshServer.Scenario

/-!
# The receive buffer neither overruns nor wedges

`ProcessInput` reads only while there is room in `rx`, and takes a read that it did not
make for one that found nothing.  It would hang if a full buffer could hold a packet that
is not complete.

## Strategy

A run is taken apart into the calls that touch `rx`.  `Passes` is the transition system of
these: the connection waits in the phase `reading`, where the API may send something, and a
read takes it to the phase `trying`, where `TryProcessOne` is called until it returns 0 or
-1.  By `Runs.passes` every run is a run of it.

* `Shrinks` says what one call of `TryProcessOne` does to `rx`.  It gives the bytes of a
  packet back, or closes the connection, or waits with a buffer that is not full: the
  length of a packet was checked when its header was read, and the check leaves room for
  the longest MAC.
* `Passes.bounded` carries this through any run.  Only `TryProcessOne` changes the
  incoming direction, and when it does the header of the packet is gone.
* The code for the version line is given again with an access for each read
  (`tryVersionLineAt`), and is the same program (`tryVersionLineAt_eq`).
-/

namespace EfiSshServer

open StateProgram RecvM

variable {E : Env} {r r' : Receiver} {s s' : Server} {fault : Fault → Prop}

/-! ## The version line with single reads -/

/-- `rx[i]`. -/
def rxByte (i : ℕ) : RecvM UInt8 := do
  return (← slice i 1).headD 0

/-- The loop over `i` with `left` bytes to look at. -/
def findLf : (left i : ℕ) → RecvM ℕ
  | 0, i => return i
  | left + 1, i => do
      if (← rxByte i) = lf then return i else findLf left (i + 1)

/-- The length of the line without a carriage return before its end `i`. -/
def lineLen (i : ℕ) : RecvM ℕ := do
  if 0 < i then
    if (← rxByte (i - 1)) = cr then return i - 1 else return i
  else return i

/-- `memcmp(c->rx, text, n) == 0`. -/
def rxStarts (text : Bytes) : RecvM Bool := do
  return (← slice 0 text.length) = text

/-- The second test of the source, behind the length test. -/
def rxSupported (len : ℕ) : RecvM Bool := do
  if len < 8 then return false
  else if ← rxStarts (ascii "SSH-2.0") then return true
  else rxStarts (ascii "SSH-1.99")

def tryVersionLineAt (E : Env) : RecvM Int := do
  let n := (← rx).buf.length
  let i ← findLf n 0
  if i = n then
    if n ≥ 255 then
      return ← onLink (fail E discProtocolError "version line too long")
    return 0
  let len ← lineLen i
  if ← (if len ≥ 4 then rxStarts (ascii "SSH-") else return false) then
    if !(← rxSupported len) then
      return ← onLink (fail E discProtocolError "only SSH 2.0 is supported")
    let line ← slice 0 len
    onLink (storeVersion line)
    compact (i + 1)
    onLink (afterLine E)
  else
    compact (i + 1)
    onLink (afterLine E)

/-- `TryProcessOne` with these reads. -/
def tryProcessOneAt (E : Env) : RecvM Int := do
  let c ← conn
  if c.state = .closed then return -1
  else if c.state = .version then tryVersionLineAt E
  else tryPacket E (handlePacket E)

theorem rxByte_run {i : ℕ} {b : UInt8} (h : r.rx.buf[i]? = some b) : rxByte i r = .ok (b, r) := by
  obtain ⟨hi, hb⟩ := List.getElem?_eq_some_iff.mp h
  have hslice : slice i 1 r = .ok ((r.rx.buf.drop i).take 1, r) := by
    rw [slice, if_pos (show i + 1 ≤ r.rx.buf.length from hi)]
  rw [rxByte, bind_ok hslice, List.drop_eq_getElem_cons hi, hb]
  rfl

/-- The loop finds the first line feed. -/
theorem findLf_run (left i : ℕ) (h : i + left = r.rx.buf.length) :
    findLf left i r = .ok (i + lineEnd (r.rx.buf.drop i), r) := by
  induction left generalizing i with
  | zero =>
      rw [List.drop_of_length_le (by omega)]
      rfl
  | succ left ih =>
      have hi : i < r.rx.buf.length := by omega
      have hcons := List.drop_eq_getElem_cons hi
      rw [findLf, bind_ok (rxByte_run (List.getElem?_eq_getElem hi)), hcons, lineEnd]
      by_cases hlf : r.rx.buf[i] = lf
      · rw [if_pos hlf, List.takeWhile_cons_of_neg (by simpa using hlf)]
        rfl
      · rw [if_neg hlf, List.takeWhile_cons_of_pos (by simpa using hlf), ih (i + 1) (by omega),
          lineEnd, List.length_cons, Nat.add_right_comm, Nat.add_assoc]

theorem rxStarts_run (text : Bytes) (h : text.length ≤ r.rx.buf.length) :
    rxStarts text r = .ok (r.rx.buf.take text.length = text, r) := by
  have hslice : slice 0 text.length r = .ok ((r.rx.buf.drop 0).take text.length, r) := by
    rw [slice, if_pos (by omega)]
  rw [rxStarts, bind_ok hslice, List.drop_zero]
  rfl

theorem firstLine_length_le (b : Bytes) : (firstLine b).length ≤ lineEnd b := by
  unfold firstLine
  split
  · exact (List.length_take_le _ _).trans (Nat.sub_le _ 1)
  · exact List.length_take_le _ _

theorem firstLine_eq_take (b : Bytes) : firstLine b = b.take (firstLine b).length := by
  unfold firstLine
  split
  · rw [List.length_take, List.take_eq_take_min]
  · rw [List.length_take, List.take_eq_take_min]

theorem lineLen_run (h : lineEnd r.rx.buf < r.rx.buf.length) :
    lineLen (lineEnd r.rx.buf) r = .ok ((firstLine r.rx.buf).length, r) := by
  unfold lineLen firstLine
  by_cases hpos : 0 < lineEnd r.rx.buf
  · have hlast : lineEnd r.rx.buf - 1 < r.rx.buf.length := by omega
    have hget : r.rx.buf.getD (lineEnd r.rx.buf - 1) 0 = r.rx.buf[lineEnd r.rx.buf - 1] :=
      (List.getElem_eq_getD 0).symm
    rw [if_pos hpos, bind_ok (rxByte_run (List.getElem?_eq_getElem hlast)), hget]
    by_cases hcr : r.rx.buf[lineEnd r.rx.buf - 1] = cr
    · rw [if_pos hcr, if_pos ⟨hpos, hcr⟩, List.length_take, Nat.min_eq_left (by omega)]
      rfl
    · rw [if_neg hcr, if_neg fun h => hcr h.2, List.length_take, Nat.min_eq_left (by omega)]
      rfl
  · rw [if_neg hpos, if_neg fun h => hpos h.1, List.length_take, Nat.min_eq_left (by omega)]
    rfl

/-- The first bytes of the line are those of the buffer. -/
theorem take_firstLine {b : Bytes} {n : ℕ} (h : n ≤ (firstLine b).length) :
    (firstLine b).take n = b.take n := by
  rw [firstLine_eq_take, List.take_take, Nat.min_eq_left h]

theorem rxSupported_run (h : lineEnd r.rx.buf < r.rx.buf.length) :
    rxSupported (firstLine r.rx.buf).length r = .ok (isSupported (firstLine r.rx.buf), r) := by
  have hle := firstLine_length_le r.rx.buf
  unfold rxSupported isSupported
  by_cases hshort : (firstLine r.rx.buf).length < 8
  · rw [if_pos hshort, decide_eq_false (by omega), Bool.false_and]
    rfl
  · have h7 : (ascii "SSH-2.0").length = 7 := rfl
    have h8 : (ascii "SSH-1.99").length = 8 := rfl
    have hnew := rxStarts_run (r := r) (ascii "SSH-2.0") (by omega)
    have hold := rxStarts_run (r := r) (ascii "SSH-1.99") (by omega)
    simp only [h7] at hnew
    simp only [h8] at hold
    rw [if_neg hshort, bind_ok hnew, decide_eq_true (Nat.le_of_not_lt hshort), Bool.true_and,
      take_firstLine (by omega), take_firstLine (by omega)]
    by_cases hstarts : r.rx.buf.take 7 = ascii "SSH-2.0"
    · rw [if_pos (by simpa using hstarts), decide_eq_true hstarts, Bool.true_or]
      rfl
    · rw [if_neg (by simpa using hstarts), decide_eq_false hstarts, Bool.false_or, hold]

/-- No read of the version line is outside of the received bytes. -/
theorem tryVersionLineAt_eq (r : Receiver) : tryVersionLineAt E r = tryVersionLine E r := by
  have hrx : (rx : RecvM Rx) r = .ok (r.rx, r) := rfl
  have hfind := findLf_run (r := r) r.rx.buf.length 0 (Nat.zero_add _)
  rw [Nat.zero_add, List.drop_zero] at hfind
  rw [tryVersionLineAt, tryVersionLine, bind_ok hrx, bind_ok hrx, bind_ok hfind]
  simp only
  by_cases hnone : lineEnd r.rx.buf = r.rx.buf.length
  · rw [if_pos hnone, if_pos hnone]
  · have hend : lineEnd r.rx.buf < r.rx.buf.length :=
      Nat.lt_of_le_of_ne (lineEnd_le _) hnone
    have hle := firstLine_length_le r.rx.buf
    have h4 : (ascii "SSH-").length = 4 := rfl
    have hssh : (if (firstLine r.rx.buf).length ≥ 4 then rxStarts (ascii "SSH-")
        else return false) r = .ok (isSshLine (firstLine r.rx.buf), r) := by
      unfold isSshLine
      by_cases hlong : (firstLine r.rx.buf).length ≥ 4
      · have hstarts := rxStarts_run (r := r) (ascii "SSH-") (by omega)
        rw [if_pos hlong, hstarts, decide_eq_true hlong, Bool.true_and, take_firstLine hlong, h4]
      · rw [if_neg hlong, decide_eq_false hlong, Bool.false_and]
        rfl
    have hslice : slice 0 (firstLine r.rx.buf).length r = .ok (firstLine r.rx.buf, r) := by
      rw [slice, if_pos (by omega), List.drop_zero, ← firstLine_eq_take]
    rw [if_neg hnone, if_neg hnone, bind_ok (lineLen_run hend), bind_ok hssh]
    cases isSshLine (firstLine r.rx.buf) with
    | false => rfl
    | true =>
        rw [if_pos rfl, if_pos rfl, bind_ok (rxSupported_run hend)]
        cases isSupported (firstLine r.rx.buf) with
        | false => rfl
        | true =>
            rw [if_neg (by decide), if_neg (by decide), bind_ok hslice]

theorem tryProcessOneAt_eq (r : Receiver) : tryProcessOneAt E r = tryProcessOne E r := by
  have hconn : (conn : RecvM Conn) r = .ok (r.link.conn, r) := rfl
  rw [tryProcessOneAt, tryProcessOne, tryProcessOneWith, bind_ok hconn, bind_ok hconn]
  split
  · rfl
  split
  · exact tryVersionLineAt_eq r
  · rfl

/-! ## What one call does to the buffer -/

/-- A pending header fits the cipher of the incoming direction. -/
def Aligned (r : Receiver) : Prop :=
  r.rx.haveLen = true → (4 + r.rx.pktLen) % blockOf r.link.conn.inDir = 0

/-- `r'` came from `r` with the result `ret` of `TryProcessOne`. -/
structure Shrinks (r : Receiver) (ret : Int) (r' : Receiver) : Prop where
  shorter : r'.rx.buf.length ≤ r.rx.buf.length
  aligned : Aligned r'
  drops : 0 < ret → r'.rx.buf.length < r.rx.buf.length
  waits : ret = 0 → r'.rx.buf.length < sshRxBuf
  goesOn : r'.link.conn.state ≠ .closed → r'.rx.buf.length < sshRxBuf

/-- The parts of the receiver that the cipher and the MAC leave alone. -/
structure SameRx (r r' : Receiver) : Prop where
  length : r'.rx.buf.length = r.rx.buf.length
  haveLen : r'.rx.haveLen = r.rx.haveLen
  pktLen : r'.rx.pktLen = r.rx.pktLen
  active : r'.link.conn.inDir.active = r.link.conn.inDir.active

theorem SameRx.refl (r : Receiver) : SameRx r r := ⟨rfl, rfl, rfl, rfl⟩

theorem SameRx.trans {r'' : Receiver} (h : SameRx r r') (h' : SameRx r' r'') : SameRx r r'' :=
  ⟨h'.length.trans h.length, h'.haveLen.trans h.haveLen, h'.pktLen.trans h.pktLen,
    h'.active.trans h.active⟩

theorem SamePacket.sameRx (h : SamePacket r r') : SameRx r r' :=
  ⟨h.length, h.haveLen, h.pktLen, h.active⟩

theorem SameRx.aligned (h : SameRx r r') (hr : Aligned r) : Aligned r' := by
  intro hlen
  rw [h.haveLen] at hlen
  rw [h.pktLen, blockOf, h.active]
  exact hr hlen

/-- The connection is closed, or bytes were taken from a buffer that was not too long. -/
theorem shrinks_of_lt {ret : Int} (hlt : r'.rx.buf.length < r.rx.buf.length)
    (hroom : r.rx.buf.length ≤ sshRxBuf) (haligned : Aligned r') : Shrinks r ret r' :=
  ⟨Nat.le_of_lt hlt, haligned, fun _ => hlt, fun _ => Nat.lt_of_lt_of_le hlt hroom,
    fun _ => Nat.lt_of_lt_of_le hlt hroom⟩

theorem shrinks_of_closed (h : SameRx r r') (hr : Aligned r)
    (hclosed : r'.link.conn.state = .closed) : Shrinks r (-1) r' :=
  ⟨Nat.le_of_eq h.length, h.aligned hr, fun h => absurd h (by decide),
    fun h => absurd h (by decide), fun h => absurd hclosed h⟩

/-- `TryProcessOne` waits for more bytes. -/
theorem shrinks_of_short (h : SameRx r r') (hr : Aligned r)
    (hshort : r.rx.buf.length < sshRxBuf) : Shrinks r 0 r' := by
  have hshort' : r'.rx.buf.length < sshRxBuf := by rwa [h.length]
  exact ⟨Nat.le_of_eq h.length, h.aligned hr, fun h => absurd h (by decide), fun _ => hshort',
    fun _ => hshort'⟩

/-- A failure closes the connection and nothing else. -/
theorem fail_closes (reason : UInt32) (msg : String) :
    wp (onLink (fail E reason msg))
      (fun ret r' => ret = -1 ∧ SameRx r r' ∧ r'.link.conn.state = .closed) fault r := by
  rw [wp_onLink]
  apply (fail_farewell reason msg).imp
  rintro ret l' ⟨hret, hfarewell⟩
  refine ⟨hret, ⟨rfl, rfl, rfl, ?_⟩, hfarewell.closed⟩
  exact congrArg Dir.active hfarewell.frame.inDir

theorem fail_shrinks {r₁ : Receiver} (h : SameRx r r₁) (hr : Aligned r) (reason : UInt32)
    (msg : String) : wp (onLink (fail E reason msg)) (Shrinks r) fault r₁ := by
  apply (fail_closes reason msg).imp
  rintro ret r' ⟨rfl, hsame, hclosed⟩
  exact shrinks_of_closed (h.trans hsame) hr hclosed

/-- A program of the link that nothing is known about. -/
theorem wp_onLink_any {α : Type} {m : LinkM α} {post : α → Receiver → Prop}
    (h : ∀ a l', post a { r with link := l' }) : wp (onLink m) post (fun _ => True) r := by
  rw [wp_onLink]
  apply wp.imp wp.trivial
  intro a l' _
  exact h a l'

/-- A line is taken off, or there is room for more of it. -/
theorem tryVersionLine_shrinks (hroom : r.rx.buf.length ≤ sshRxBuf) (hr : Sound r)
    (hstate : r.link.conn.state = .version) :
    wp (tryVersionLine E) (Shrinks r) (fun _ => True) r := by
  have hno : r.rx.haveLen ≠ true := fun hlen => (hr.header hlen).1 hstate
  have haligned : ∀ (l : Link) (b : Bytes), Aligned ⟨l, { r.rx with buf := b }⟩ :=
    fun _ _ hlen => absurd hlen hno
  rw [tryVersionLine]
  simp only [wp_bind, wp_rx]
  apply wp.ite
  · intro _
    apply wp.ite
    · intro _
      exact fail_shrinks (.refl r) (haligned _ _) _ _
    · -- no line feed yet, and too short to be refused
      intro hshort
      exact shrinks_of_short (.refl r) (haligned _ _)
        ((Nat.lt_of_not_le hshort).trans (by decide))
  intro hlf
  have hle := lineEnd_le r.rx.buf
  have hdrop : (r.rx.buf.drop (lineEnd r.rx.buf + 1)).length < r.rx.buf.length := by
    rw [List.length_drop]
    omega
  -- a line that is taken out leaves fewer bytes, whatever `afterLine` sends
  have htaken : ∀ (l : Link), wp (do compact (lineEnd r.rx.buf + 1); onLink (afterLine E))
      (Shrinks r) (fun _ => True) { r with link := l } := by
    intro l
    rw [wp_bind]
    apply wp_compact (r := { r with link := l }) (n := lineEnd r.rx.buf + 1)
      (show lineEnd r.rx.buf + 1 ≤ r.rx.buf.length by omega)
    apply wp_onLink_any
    intro ret l'
    exact shrinks_of_lt hdrop hroom (haligned _ _)
  apply wp.ite
  · intro _
    apply wp.ite
    · intro _
      exact fail_shrinks (.refl r) (haligned _ _) _ _
    · intro _
      rw [wp_bind]
      apply wp_onLink_any
      intro _ l'
      exact htaken l'
  · intro _
    exact htaken r.link


/-! ## Packets -/

/-- Decrypting in place changes no length. -/
theorem decryptAt_same {off len : ℕ} (hrange : off + len ≤ r.rx.buf.length) :
    wp (decryptAt E off len) (fun _ r' => SameRx r r') fault r := by
  apply (decryptAt_spec (A := True) (E := E) hrange).imp
  intro _ r' h
  exact h.2.sameRx

/-- The header of a packet: 1 when it fits, and otherwise there is nothing to wait for or
room to do so. -/
def HeaderSettled (r : Receiver) (ret : Int) (r' : Receiver) : Prop :=
  if ret = 1 then r'.rx.buf.length = r.rx.buf.length ∧ Aligned r' else Shrinks r ret r'

theorem checkLength_aligned {r₁ : Receiver} (h : SameRx r r₁) (hno : r.rx.haveLen = false)
    (hfour : 4 ≤ r.rx.buf.length) :
    wp (checkLength E r.link.conn.inDir) (HeaderSettled r) fault r₁ := by
  rw [checkLength]
  simp only [wp_bind]
  apply wp_slice (by rw [h.length]; omega)
  simp only [wp_setRx]
  apply wp.ite
  · intro _
    apply (fail_closes _ _).imp
    rintro ret r' ⟨rfl, hsame, hclosed⟩
    have hlen : r'.rx.haveLen ≠ true := by
      rw [hsame.haveLen, h.haveLen, hno]
      decide
    refine ⟨?_, fun h => absurd h hlen, fun h => absurd h (by decide),
      fun h => absurd h (by decide), fun h => absurd hclosed h⟩
    exact Nat.le_of_eq (hsame.length.trans h.length)
  · intro hgood
    simp only [badLength, Bool.or_eq_true, decide_eq_true_eq, not_or, not_not] at hgood
    refine ⟨h.length, fun _ => ?_⟩
    have hblock : blockOf r₁.link.conn.inDir = blockOf r.link.conn.inDir := by
      rw [blockOf, blockOf, h.active]
    exact (congrArg (_ % ·) hblock).trans hgood.2

theorem readHeader_aligned (hr : Aligned r) :
    wp (readHeader E) (HeaderSettled r) fault r := by
  rw [readHeader]
  simp only [wp_bind, wp_rx, wp_conn]
  apply wp.ite
  · intro _
    exact ⟨rfl, hr⟩
  intro hlen
  apply wp.ite
  · intro hfirst
    have hshort : r.rx.buf.length < sshRxBuf := by
      apply hfirst.trans
      unfold firstLen
      split
      · decide
      · decide
    exact shrinks_of_short (.refl r) hr hshort
  intro hfirst
  have hno : r.rx.haveLen = false := by simpa using hlen
  rw [parseHeader]
  apply wp.ite
  · -- encrypted: the first block is deciphered in place before the length is read
    intro hactive
    rw [firstLen, if_pos hactive] at hfirst
    rw [wp_bind]
    apply (decryptAt_same (E := E) (show 0 + 16 ≤ r.rx.buf.length by omega)).imp
    intro ok r₁ hsame
    apply wp.ite
    · intro _
      apply (fail_closes _ _).imp
      rintro ret r' ⟨rfl, hfail, hclosed⟩
      exact shrinks_of_closed (hsame.trans hfail) hr hclosed
    · intro _
      exact checkLength_aligned hsame hno (by omega)
  · intro hactive
    rw [firstLen, if_neg hactive] at hfirst
    exact checkLength_aligned (.refl r) hno (by omega)

/-- A MAC that is not right closes the connection. -/
theorem compareMac_same (packet mac : Bytes) :
    wp (onLink (compareMac E packet mac))
      (fun ret r' => SameRx r r' ∧ (ret ≠ 0 → r'.link.conn.state = .closed)) fault r := by
  have hfail : ∀ (r₁ : Receiver) (msg : String), SameRx r r₁ →
      wp (fail E discMacError msg)
        (fun ret l' => SameRx r { r₁ with link := l' } ∧ (ret ≠ 0 → l'.conn.state = .closed))
        fault r₁.link := by
    intro r₁ msg hsame
    apply (fail_farewell discMacError msg).imp
    rintro ret l' ⟨-, hfarewell⟩
    refine ⟨hsame.trans ⟨rfl, rfl, rfl, ?_⟩, fun _ => hfarewell.closed⟩
    exact congrArg Dir.active hfarewell.frame.inDir
  rw [wp_onLink, compareMac]
  simp only [wp_bind, LinkM.wp_ask]
  apply wp.ite
  · intro _
    exact hfail { r with link := _ } _ ⟨rfl, rfl, rfl, rfl⟩
  intro _
  simp only [wp_bind, LinkM.wp_conn]
  apply wp.ite
  · intro _
    exact hfail { r with link := _ } _ ⟨rfl, rfl, rfl, rfl⟩
  · intro _
    exact ⟨⟨rfl, rfl, rfl, rfl⟩, fun h => absurd rfl h⟩

theorem checkMac_same {d : Dir} {total : ℕ} (hneed : total + d.macLen ≤ r.rx.buf.length) :
    wp (checkMac E d total)
      (fun ret r' => SameRx r r' ∧ (ret ≠ 0 → r'.link.conn.state = .closed)) fault r := by
  have hcheck : ∀ r₁, SameRx r r₁ → wp (checkPacketMac E d total)
      (fun ret r' => SameRx r r' ∧ (ret ≠ 0 → r'.link.conn.state = .closed)) fault r₁ := by
    intro r₁ hsame
    rw [checkPacketMac]
    simp only [wp_bind]
    apply wp_slice (by rw [hsame.length]; omega)
    apply wp_slice (by rw [hsame.length]; omega)
    apply (compareMac_same _ _).imp
    rintro ret r' ⟨h, hclosed⟩
    exact ⟨hsame.trans h, hclosed⟩
  rw [checkMac]
  apply wp.ite
  · intro hlong
    rw [wp_bind]
    apply (decryptAt_same (E := E) (show 16 + (total - 16) ≤ r.rx.buf.length by omega)).imp
    intro ok r₁ hsame
    apply wp.ite
    · intro _
      apply (fail_closes _ _).imp
      rintro ret r' ⟨-, h, hclosed⟩
      exact ⟨hsame.trans h, fun _ => hclosed⟩
    · intro _
      exact hcheck r₁ hsame
  · intro _
    exact hcheck r (.refl r)

/-- The packet is given back whatever the handler did with it. -/
theorem finishPacket_shrinks {r₁ : Receiver} {total need : ℕ} (h : SameRx r r₁) (hr : Aligned r)
    (hroom : r.rx.buf.length ≤ sshRxBuf) (htotal : total = 4 + r.rx.pktLen)
    (hfive : 5 ≤ r.rx.pktLen) (hneed : total ≤ need) (hbuf : need ≤ r.rx.buf.length) :
    wp (finishPacket E (handlePacket E) total need) (Shrinks r) (fun _ => True) r₁ := by
  have hlength := h.length
  rw [finishPacket]
  simp only [wp_bind, wp_rx, h.pktLen]
  apply wp_slice (by omega)
  apply wp.ite
  · intro _
    exact fail_shrinks h hr _ _
  intro hpad
  simp only [wp_bind]
  apply wp_slice (by omega)
  apply wp_slice (by omega)
  apply wp_slice (by omega)
  apply wp_onLink_any
  intro ret l'
  apply wp_compact (r := { r₁ with link := l' }) (show need ≤ r₁.rx.buf.length by omega)
  have hdone : ∀ ret', Shrinks r ret'
      ⟨l', { r₁.rx with buf := r₁.rx.buf.drop need, haveLen := false }⟩ := by
    intro ret'
    apply shrinks_of_lt _ hroom (fun hlen => by cases hlen)
    rw [List.length_drop]
    omega
  simp only [wp_setRx, wp_conn]
  apply wp.ite
  · intro _
    exact hdone _
  · intro _
    exact hdone _

/-- The bytes that `TryProcessOne` waits for. -/
def packetNeed (r : Receiver) : ℕ := 4 + r.rx.pktLen + trailerLen r.link.conn.inDir

/-- There is room for any packet whose length was accepted. -/
theorem packetNeed_le (h : r.rx.pktLen ≤ sshMaxPacket - 4) : packetNeed r ≤ sshRxBuf := by
  have htrailer := trailerLen_le r.link.conn.inDir
  unfold packetNeed sshRxBuf
  unfold sshMaxPacket at *
  omega

theorem tryBody_shrinks (hr : Sound r) (haligned : Aligned r) (hlen : r.rx.haveLen = true)
    (hroom : r.rx.buf.length ≤ sshRxBuf) :
    wp (tryBody E (handlePacket E)) (Shrinks r) (fun _ => True) r := by
  obtain ⟨-, hfive, hmax, -⟩ := hr.header hlen
  rw [tryBody]
  simp only [wp_bind, wp_conn, wp_rx]
  apply wp.ite
  · intro hshort
    exact shrinks_of_short (.refl r) haligned (Nat.lt_of_lt_of_le hshort (packetNeed_le hmax))
  intro hneed
  rw [Nat.not_lt] at hneed
  rw [completePacket]
  apply wp.ite
  · intro hactive
    have htrailer : trailerLen r.link.conn.inDir = r.link.conn.inDir.macLen := if_pos hactive
    rw [wp_bind]
    apply (checkMac_same (E := E) (by omega)).imp
    rintro ret r₁ ⟨hsame, hclosed⟩
    apply wp.ite
    · intro hne
      exact shrinks_of_closed hsame haligned (hclosed hne)
    · intro _
      exact finishPacket_shrinks hsame haligned hroom rfl hfive (Nat.le_add_right _ _) hneed
  · intro _
    exact finishPacket_shrinks (.refl r) haligned hroom rfl hfive (Nat.le_add_right _ _) hneed

theorem tryPacket_shrinks (hr : Sound r) (haligned : Aligned r)
    (hroom : r.rx.buf.length ≤ sshRxBuf) (hstate : r.link.conn.state ≠ .version) :
    wp (tryPacket E (handlePacket E)) (Shrinks r) (fun _ => True) r := by
  rw [tryPacket, wp_bind]
  apply ((readHeader_spec (A := True) hr.header hstate).both (readHeader_aligned haligned)).imp
  rintro header r₁ ⟨⟨hmoves, hone⟩, hread⟩
  apply wp.ite
  · intro hne
    rw [HeaderSettled, if_neg hne] at hread
    exact hread
  intro heq
  rw [not_not] at heq
  rw [HeaderSettled, if_pos heq] at hread
  obtain ⟨hlength, haligned₁⟩ := hread
  apply (tryBody_shrinks (hmoves.sound hr) haligned₁ (hone heq).1 (by rwa [hlength])).imp
  intro ret r' h
  exact ⟨hlength ▸ h.shorter, h.aligned, hlength ▸ h.drops, h.waits, h.goesOn⟩

/-- **One call of `TryProcessOne`.** -/
theorem tryProcessOne_shrinks (hr : Sound r) (haligned : Aligned r)
    (hroom : r.rx.buf.length ≤ sshRxBuf) :
    wp (tryProcessOne E) (Shrinks r) (fun _ => True) r := by
  rw [tryProcessOne, tryProcessOneWith]
  simp only [wp_bind, wp_conn]
  apply wp.ite
  · intro hclosed
    exact shrinks_of_closed (.refl r) haligned hclosed
  intro _
  apply wp.ite
  · intro hstate
    exact tryVersionLine_shrinks hroom hr hstate
  · intro hstate
    exact tryPacket_shrinks hr haligned hroom hstate

/-- The one fault is a version line that is too long for `clientVersion`. -/
theorem tryProcessOne_sound (hr : Sound r) :
    wp (tryProcessOne E) (fun _ r' => Sound r') (· = .versionOverflow) r := by
  have hmoves : wp (tryProcessOne E) (fun _ r' => Moves True E r r') (· = .versionOverflow) r :=
    tryProcessOne_moves hr fun _ => rfl
  apply hmoves.imp
  intro _ r' h
  exact h.sound hr

/-! ## Runs, call by call -/

/-- Where a run is: before a read, or between two calls of `TryProcessOne`. -/
inductive Phase where
  | reading
  | trying
  deriving DecidableEq

/-- The states of a run that starts in `s₀`, with all that happens to `rx` between two of
them. -/
inductive Passes (E : Env) (s₀ : Server) : Phase → Server → Prop
  | start : Passes E s₀ .reading s₀
  /-- The API sends something, or looks at the clock. -/
  | api {s : Server} {l' : Link} (h : Passes E s₀ .reading s)
      (hsteps : ApiSteps E s.link.toSession l'.toSession) :
      Passes E s₀ .reading { s with link := l' }
  /-- `ProcessInput` reads, and goes on to `TryProcessOne`. -/
  | received {s s' : Server} {got : Bool} (h : Passes E s₀ .reading s)
      (hopen : s.link.conn.state ≠ .closed) (hread : receive s = .ok (some got, s')) :
      Passes E s₀ .trying s'
  /-- It finds the connection lost. -/
  | lost {s s' : Server} (h : Passes E s₀ .reading s) (hopen : s.link.conn.state ≠ .closed)
      (hread : receive s = .ok (none, s')) : Passes E s₀ .reading s'
  /-- `TryProcessOne` is called again, after a packet. -/
  | again {s : Server} {ret : Int} {r' : Receiver} (h : Passes E s₀ .trying s)
      (htry : tryProcessOne E s.toReceiver = .ok (ret, r')) (hret : 0 < ret) :
      Passes E s₀ .trying { s with toReceiver := r' }
  /-- It is not. -/
  | done {s : Server} {ret : Int} {r' : Receiver} (h : Passes E s₀ .trying s)
      (htry : tryProcessOne E s.toReceiver = .ok (ret, r')) (hret : ret ≤ 0) :
      Passes E s₀ .reading { s with toReceiver := r' }

/-- What holds in each phase. -/
structure RxBounded (phase : Phase) (s : Server) : Prop where
  sound : Sound s.toReceiver
  aligned : Aligned s.toReceiver
  room : s.rx.buf.length ≤ sshRxBuf
  ready : phase = .reading → s.link.conn.state ≠ .closed → s.rx.buf.length < sshRxBuf

section Passes

variable {s₀ : Server} {phase : Phase}

theorem rd_length (max : ℕ) :
    wp (rd max) (fun out _ => ∀ b, out = some b → b.length ≤ max) fault s := by
  rcases hinput : s.input with _ | ⟨b | _, rest⟩
  · simp [wp, rd, hinput]
  · by_cases hfits : b.length ≤ max
    · simp [wp, rd, hinput, hfits]
    · simp [wp, rd, hinput, hfits]
  · simp [wp, rd, hinput]

/-- A read stays inside the buffer. -/
theorem receive_bounded (h : RxBounded .reading s) :
    wp receive (fun out s' => RxBounded (if out = none then .reading else .trying) s')
      (fun _ => True) s := by
  rw [receive]
  simp only [wp_bind, wp_onRecv, wp_rx]
  apply wp.ite
  · intro hroom
    rw [wp_bind]
    apply ((rd_frame _).both (rd_length _)).imp
    rintro out s₁ ⟨hsame, hlength⟩
    have hsound : Sound s₁.toReceiver := by
      rw [hsame]
      exact h.sound
    have haligned : Aligned s₁.toReceiver := by
      rw [hsame]
      exact h.aligned
    have hrx : s₁.rx.buf.length = s.rx.buf.length :=
      congrArg (fun r : Receiver => r.rx.buf.length) hsame
    cases out with
    | none =>
        simp only [wp_bind, ServerM.wp_onLink, LinkM.wp_update, wp_pure]
        refine ⟨⟨hsound.buffers, fun hlen => ⟨by simp, (hsound.header hlen).2⟩⟩, haligned, ?_,
          fun _ hopen => absurd rfl hopen⟩
        exact hrx ▸ Nat.le_of_lt hroom
    | some b =>
        have hb := hlength b rfl
        -- a read brings no more than it was given room for
        have hmore : (s₁.rx.buf ++ b).length ≤ sshRxBuf := by
          rw [List.length_append]
          omega
        simp only [wp_bind, wp_onRecv, wp_setRx, wp_pure]
        refine ⟨⟨hsound.buffers, fun hlen => ?_⟩, haligned, hmore, fun h => by cases h⟩
        obtain ⟨hstate, hfive, hmax, hfour⟩ := hsound.header hlen
        refine ⟨hstate, hfive, hmax, hfour.trans ?_⟩
        rw [List.length_append]
        exact Nat.le_add_right _ _
  · -- a full buffer is left as it is
    intro hfull
    exact ⟨h.sound, h.aligned, h.room, fun h => by cases h⟩

/-- **What holds in each phase of a run.** -/
theorem Passes.bounded (h : Passes E s₀ phase s) (h₀ : RxBounded .reading s₀) :
    RxBounded phase s := by
  induction h with
  | start => exact h₀
  | @api s l' _ hsteps ih =>
      refine ⟨⟨hsteps.steps.buffers ih.sound.buffers, fun hlen => ?_⟩, fun hlen => ?_, ih.room,
        fun _ hopen => ih.ready rfl ?_⟩
      · exact ⟨hsteps.steps.state_ne_version (ih.sound.header hlen).1,
          (ih.sound.header hlen).2⟩
      · exact (congrArg ((4 + s.rx.pktLen) % blockOf ·) hsteps.inDir).trans (ih.aligned hlen)
      · rcases hsteps.state with heq | hclosed
        · rwa [← heq]
        · exact absurd hclosed hopen
  | received _ _ hread ih => exact (receive_bounded ih).ok hread
  | lost _ _ hread ih => exact (receive_bounded ih).ok hread
  | again _ htry hret ih =>
      have hshrinks := (tryProcessOne_shrinks ih.sound ih.aligned ih.room).ok htry
      have hsound := (tryProcessOne_sound ih.sound).ok htry
      exact ⟨hsound, hshrinks.aligned, hshrinks.shorter.trans ih.room,
        fun h => by cases h⟩
  | done _ htry hret ih =>
      have hshrinks := (tryProcessOne_shrinks ih.sound ih.aligned ih.room).ok htry
      have hsound := (tryProcessOne_sound ih.sound).ok htry
      exact ⟨hsound, hshrinks.aligned, hshrinks.shorter.trans ih.room,
        fun _ => hshrinks.goesOn⟩

end Passes


/-! ## Every run passes through these states -/

section Runs

variable {s₀ : Server}

/-- The inner loop ends before a read.  Each round that goes on drops a byte, so that there
are rounds enough. -/
theorem processAll_passes (h₀ : RxBounded .reading s₀) (rounds : ℕ) (any : Bool)
    (h : Passes E s₀ .trying s) (hrounds : s.rx.buf.length < rounds) :
    wp (processAll E rounds any) (fun _ r' => Passes E s₀ .reading { s with toReceiver := r' })
      (fun _ => True) s.toReceiver := by
  induction rounds generalizing s any with
  | zero => exact absurd hrounds (Nat.not_lt_zero _)
  | succ rounds ih =>
      have hbounded := h.bounded h₀
      rw [processAll, wp_bind]
      apply wp_of_forall _ fun _ _ => trivial
      intro ret r₁ htry
      have hshrinks := (tryProcessOne_shrinks hbounded.sound hbounded.aligned hbounded.room).ok htry
      apply wp.ite
      · intro hneg
        exact .done h htry (Int.le_of_lt hneg)
      intro hnonneg
      apply wp.ite
      · intro hzero
        exact .done h htry (Int.le_of_eq hzero)
      · intro hne
        have hpos : 0 < ret := by omega
        apply ih true (s := { s with toReceiver := r₁ }) (.again h htry hpos)
        have hdrops := hshrinks.drops hpos
        show r₁.rx.buf.length < rounds
        omega

theorem processRounds_passes (h₀ : RxBounded .reading s₀) (rounds : ℕ) (progressed : Bool)
    (h : Passes E s₀ .reading s) :
    wp (processRounds E rounds progressed) (fun _ s' => Passes E s₀ .reading s')
      (fun _ => True) s := by
  induction rounds generalizing s progressed with
  | zero => exact h
  | succ rounds ih =>
      rw [processRounds]
      simp only [wp_bind, ServerM.wp_conn]
      apply wp.ite
      · intro _
        exact h
      intro hopen
      rw [wp_bind]
      apply wp_of_forall _ fun _ _ => trivial
      intro got s₁ hread
      cases got with
      | none => exact .lost h hopen hread
      | some got =>
          have htrying : Passes E s₀ .trying s₁ := .received h hopen hread
          simp only [wp_bind, wp_onRecv, wp_rx]
          apply (processAll_passes h₀ _ _ htrying (Nat.lt_succ_self _)).imp
          intro any r₂ h₂
          cases any with
          | none => exact h₂
          | some any =>
              apply wp.ite
              · intro _
                exact ih true h₂
              · intro _
                exact h₂

theorem passes_callInvariant (h₀ : RxBounded .reading s₀) :
    CallInvariant E (fun _ => True) (Passes E s₀ .reading) where
  steps h hsteps := .api h hsteps
  input h := by
    rw [processInput]
    simp only [wp_bind, wp_get]
    exact processRounds_passes h₀ _ _ h

/-- **Every run is a run of the transition system.** -/
theorem Runs.passes (h₀ : RxBounded .reading s₀) (h : Runs E s₀ s) : Passes E s₀ .reading s :=
  (passes_callInvariant h₀).runs h .start

theorem rxBounded_new {connSize : ℕ} {hostSeed : Bytes} {calls : List Call}
    {input : List ReadResult} (hnew : sshNew E connSize hostSeed calls input = some s₀) :
    RxBounded .reading s₀ := by
  obtain ⟨-, hrx, -⟩ := sshNew_eq hnew
  have hempty : s₀.rx.buf.length = 0 := by
    rw [hrx]
    rfl
  refine ⟨sshNew_sound hnew, fun hlen => ?_, ?_, fun _ _ => ?_⟩
  · rw [hrx] at hlen
    cases hlen
  · rw [hempty]
    exact Nat.zero_le _
  · rw [hempty]
    decide

end Runs

/-- The buffer and a pending header between two calls. -/
structure RxOk (r : Receiver) : Prop where
  room : r.rx.buf.length ≤ sshRxBuf
  header : r.rx.haveLen = true → 5 ≤ r.rx.pktLen ∧ r.rx.pktLen ≤ sshMaxPacket - 4 ∧
    (4 + r.rx.pktLen) % blockOf r.link.conn.inDir = 0

/-- `TryProcessOne` waits for bytes that there is room for. -/
structure CanWait (r : Receiver) : Prop where
  room : r.rx.buf.length < sshRxBuf
  packet : r.rx.haveLen = true → packetNeed r ≤ sshRxBuf

/-- **The receive buffer cannot wedge or overrun.**  A run from a new connection goes
through the states of `Passes` only.  In each of these the buffer and the header are in
order, and before a read there is room unless the connection is closed.  `TryProcessOne`
reads received bytes only and drops no more than there are, and when it returns 0 it can
wait. -/
theorem rx_bounded {E : Env} {connSize : ℕ} {hostSeed : Bytes} {calls : List Call}
    {input : List ReadResult} {s₀ : Server}
    (hnew : sshNew E connSize hostSeed calls input = some s₀) :
    (∀ s, Runs E s₀ s → Passes E s₀ .reading s) ∧
      (∀ phase s, Passes E s₀ phase s → RxOk s.toReceiver) ∧
      (∀ s, Passes E s₀ .reading s → s.link.conn.state ≠ .closed → s.rx.buf.length < sshRxBuf) ∧
      ∀ s, Passes E s₀ .trying s →
        tryProcessOneAt E s.toReceiver = tryProcessOne E s.toReceiver ∧
          (∀ f, tryProcessOneAt E s.toReceiver = .error f → f = .versionOverflow) ∧
          ∀ r', tryProcessOne E s.toReceiver = .ok (0, r') → CanWait r' := by
  have h₀ := rxBounded_new hnew
  refine ⟨fun s h => h.passes h₀, ?_, ?_, ?_⟩
  · intro phase s h
    have hbounded := h.bounded h₀
    refine ⟨hbounded.room, fun hlen => ?_⟩
    obtain ⟨-, hfive, hmax, -⟩ := hbounded.sound.header hlen
    exact ⟨hfive, hmax, hbounded.aligned hlen⟩
  · intro s h hopen
    exact (h.bounded h₀).ready rfl hopen
  · intro s h
    have hbounded := h.bounded h₀
    have hsound := tryProcessOne_sound (E := E) hbounded.sound
    refine ⟨tryProcessOneAt_eq _, ?_, ?_⟩
    · intro f hfault
      rw [tryProcessOneAt_eq] at hfault
      exact hsound.error hfault
    · intro r' htry
      have hshrinks := (tryProcessOne_shrinks hbounded.sound hbounded.aligned hbounded.room).ok htry
      refine ⟨hshrinks.waits rfl, fun hlen => ?_⟩
      obtain ⟨-, -, hmax, -⟩ := (hsound.ok htry).header hlen
      exact packetNeed_le hmax

/-- A client that has logged in, and the first 20 bytes of a packet with a MAC: the
receiver knows its length and waits for the rest. -/
theorem rx_bounded_midPacket : let E := plainEnv fun _ _ => true
    let input := [.data (clientLogin "root" "secret"),
      .data ((sealedFrame (clientData [108, 115])).take 20)]
    ∃ s₀ s, sshNew E 0 [] [] input = some s₀ ∧ Runs E s₀ s ∧
      (s.link.conn.inDir.active = true ∧ s.rx.haveLen = true ∧ s.rx.buf.length = 20 ∧
        packetNeed s.toReceiver = 64) ∧
      RxOk s.toReceiver ∧
      (∀ s, Runs E s₀ s → Passes E s₀ .reading s) ∧
      (∀ phase s, Passes E s₀ phase s → RxOk s.toReceiver) ∧
      (∀ s, Passes E s₀ .reading s → s.link.conn.state ≠ .closed → s.rx.buf.length < sshRxBuf) ∧
      ∀ s, Passes E s₀ .trying s →
        tryProcessOneAt E s.toReceiver = tryProcessOne E s.toReceiver ∧
          (∀ f, tryProcessOneAt E s.toReceiver = .error f → f = .versionOverflow) ∧
          ∀ r', tryProcessOne E s.toReceiver = .ok (0, r') → CanWait r' := by
  intro E input
  obtain ⟨s₀, s, hnew, hruns, hmid⟩ := exists_runs (E := E)
    (P := fun s => s.link.conn.inDir.active = true ∧ s.rx.haveLen = true ∧
      s.rx.buf.length = 20 ∧ packetNeed s.toReceiver = 64)
    [.poll, .poll] input (by decide +kernel)
  obtain ⟨hpasses, hok, hread, htry⟩ := rx_bounded hnew
  exact ⟨s₀, s, hnew, hruns, hmid, hok .reading s (hpasses s hruns), hpasses, hok, hread, htry⟩

end EfiSshServer
