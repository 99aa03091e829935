import EfiSshServer.Chunking

/-!
# The one-shot reference decoder

`decodeAll` decodes a byte string that is there as a whole: it takes the first
block, reads the packet length, takes the rest of the packet and its MAC, checks
them and hands the payload over, again and again.  It keeps no buffer and no
half-parsed packet.  Its connection is the one `ProcessInput` would work on.
-/

namespace EfiSshServer

open StateProgram LinkM RecvM IncrementalDecoder

variable {E : Env} {r r' : Receiver} {handle : Bytes → LinkM Int} {l : Link}

/-- Bytes of the stream in the clear; `none` when the cipher fails. -/
def openBytes (E : Env) (d : Dir) (data : Bytes) : LinkM (Option Bytes) :=
  if d.active ∧ data ≠ [] then decipher E data else pure (some data)

/-- What the handler answered to a packet, and the bytes behind the packet. -/
structure Decoded where
  answer : Int
  rest : Bytes

/-- Disconnect and give up. -/
def giveUp (E : Env) (reason : UInt32) (msg : String) : LinkM (Option Decoded) := do
  let _ ← fail E reason msg
  return none

/-- Whether the MAC behind a packet is right; a packet in the clear has none. -/
def macAccepted (E : Env) (d : Dir) (packet mac : Bytes) : LinkM Bool :=
  if d.active then (· = 0) <$> compareMac E packet mac else pure true

/-- Take off the padding and hand the payload over. -/
def handOver (E : Env) (handle : Bytes → LinkM Int) (pktLen : ℕ) (packet mac rest : Bytes) :
    LinkM (Option Decoded) := do
  let padLen := ((packet.drop 4).headD 0).toNat
  if padLen < 4 ∨ padLen + 1 > pktLen then return ← giveUp E discProtocolError "bad padding"
  let ret ← dispatch handle ((packet.drop 5).take (pktLen - 1 - padLen)) packet mac
  return some ⟨ret, rest⟩

/-- The rest of the packet in front of `b`, whose first block is `head` in the clear. -/
def decodeBody (E : Env) (handle : Bytes → LinkM Int) (d : Dir) (pktLen : ℕ) (head b : Bytes) :
    LinkM (Option Decoded) := do
  let total := 4 + pktLen
  if b.length < total + trailerLen d then return none
  let some tail ← openBytes E d ((b.take total).drop (firstLen d))
    | giveUp E discProtocolError "decrypt"
  let mac := (b.drop total).take (trailerLen d)
  if !(← macAccepted E d (head ++ tail) mac) then return none
  handOver E handle pktLen (head ++ tail) mac ((b.drop total).drop (trailerLen d))

/-- Decode the packet in front of `b`; `none` when there is no whole packet or the
connection is given up. -/
def decodePacket (E : Env) (handle : Bytes → LinkM Int) (b : Bytes) :
    LinkM (Option Decoded) := do
  let d := (← LinkM.conn).inDir
  if b.length < firstLen d then return none
  let some head ← openBytes E d (b.take (firstLen d)) | giveUp E discProtocolError "decrypt"
  let pktLen := (getU32 head).toNat
  if badLength d pktLen then return ← giveUp E discProtocolError "bad packet length"
  decodeBody E handle d pktLen head b

/-- Decode packet after packet; each round drops at least one byte, so the length of
the input is enough rounds. -/
def decodeRounds (E : Env) : ℕ → Bytes → LinkM Unit
  | 0, _ => return
  | rounds + 1, b => do
      if (← LinkM.conn).state = .closed then return
      let some out ← decodePacket E (handlePacket E) b | return
      decodeRounds E rounds out.rest

def decodeAll (E : Env) (b : Bytes) : LinkM Unit := decodeRounds E (b.length + 1) b

/-! ## One packet -/

/-- What `TryProcessOne` returns behind a packet that the handler answered with `ret`. -/
def returned (ret : Int) (l : Link) : Int := if ret < 0 ∨ l.conn.state = .closed then -1 else 1

theorem returned_ne_zero (ret : Int) (l : Link) : returned ret l ≠ 0 := by
  unfold returned
  split <;> decide

/-- What the decoder came to, seen from the receiver: the bytes behind the packet are
left in the buffer; or the receiver waits or has given up. -/
def Matches (m : RecvM Int) (r : Receiver) : Option Decoded → Link → Prop
  | some out, l =>
      ∃ pktLen, m r = .ok (returned out.answer l, ⟨l, ⟨out.rest, false, pktLen⟩⟩)
  | none, l => ∃ ret rx, m r = .ok (ret, ⟨l, rx⟩) ∧ (ret = 0 ∨ l.conn.state = .closed)

theorem Matches.congr {m m' : RecvM Int} {r' : Receiver} (heq : m r = m' r') {out : Option Decoded}
    (h : Matches m' r' out l) : Matches m r out l := by
  cases out with
  | some out =>
      obtain ⟨pktLen, hrun⟩ := h
      exact ⟨pktLen, heq.trans hrun⟩
  | none =>
      obtain ⟨ret, rx, hrun, hend⟩ := h
      exact ⟨ret, rx, heq.trans hrun, hend⟩

/-- The decoder and the receiver do the same. -/
def Simulates (m : RecvM Int) (r : Receiver) (d : LinkM (Option Decoded)) (l : Link) : Prop :=
  wp d (Matches m r) (fun e => m r = .error e) l

theorem Simulates.congr {m m' : RecvM Int} {q : Receiver} {d : LinkM (Option Decoded)}
    (heq : m r = m' q) (h : Simulates m' q d l) : Simulates m r d l :=
  h.mono (fun _ _ hmatch => hmatch.congr heq) fun _ he => heq.trans he

/-- `giveUp` is the failure of the receiver, whatever it returns then. -/
theorem giveUp_simulates {m : RecvM Int} {k : Int → RecvM Int} {x : Rx} {reason : UInt32}
    {msg : String} (hm : m r = (onLink (fail E reason msg) >>= k) ⟨l, x⟩)
    (hk : ∀ r, ∃ ret, k (-1) r = .ok (ret, r)) : Simulates m r (giveUp E reason msg) l := by
  simp only [Simulates, giveUp, wp_bind, wp_pure]
  have hfail : wp (fail E reason msg) _ (fun _ => False) l := fail_farewell reason msg
  obtain ⟨ret, l', hrun, rfl, hend⟩ := hfail.returns
  obtain ⟨ret, hret⟩ := hk ⟨l', x⟩
  refine wp_of_run hrun ⟨ret, x, ?_, .inr hend.closed⟩
  rw [hm, bind_ok (show onLink (fail E reason msg) ⟨l, x⟩ = .ok (-1, ⟨l', x⟩) by
    simp only [onLink, zoom, hrun])]
  exact hret

theorem slice_eq {off len : ℕ} (hrange : off + len ≤ r.rx.buf.length) :
    slice off len r = .ok ((r.rx.buf.drop off).take len, r) :=
  if_pos hrange

variable (handle) in
/-- Handing a packet over, seen from the receiver that holds it in front of its buffer. -/
theorem finishPacket_simulates {packet behind : Bytes} {trailer : ℕ}
    (hbuf : r.rx.buf = packet ++ behind) (hpacket : packet.length = 4 + r.rx.pktLen)
    (hfive : 5 ≤ r.rx.pktLen) (htrailer : trailer ≤ behind.length) :
    Simulates (finishPacket E handle packet.length (packet.length + trailer)) r
      (handOver E handle r.rx.pktLen packet (behind.take trailer) (behind.drop trailer))
      r.link := by
  have hlength : r.rx.buf.length = packet.length + behind.length := by
    rw [hbuf, List.length_append]
  have hpad : ((r.rx.buf.drop 4).take 1).headD 0 = (packet.drop 4).headD 0 := by
    rw [hbuf, List.drop_append_of_le_length (by omega)]
    have hne : packet.drop 4 ≠ [] := List.drop_eq_nil_iff.not.mpr (by omega)
    obtain ⟨v, vs, hv⟩ := List.exists_cons_of_ne_nil hne
    rw [hv]
    rfl
  -- the three slices of `finishPacket` are in range, so that no read faults
  have hrun : finishPacket E handle packet.length (packet.length + trailer) r =
      (do
        let padLen := ((packet.drop 4).headD 0).toNat
        if padLen < 4 ∨ padLen + 1 > r.rx.pktLen then
          return ← onLink (fail E discProtocolError "bad padding")
        let payload ← slice 5 (r.rx.pktLen - 1 - padLen)
        let packet' ← slice 0 packet.length
        let mac ← slice packet.length trailer
        let ret ← onLink (dispatch handle payload packet' mac)
        compact (packet.length + trailer)
        setRx fun x => { x with haveLen := false }
        if ret < 0 ∨ (← RecvM.conn).state = .closed then return -1
        return 1 : RecvM Int) r := by
    unfold finishPacket
    rw [Nat.add_sub_cancel_left, bind_ok (show RecvM.rx r = .ok (r.rx, r) from rfl)]
    simp only
    rw [bind_ok (slice_eq (show 4 + 1 ≤ _ by omega)), hpad]
  unfold handOver
  by_cases hbad : ((packet.drop 4).headD 0).toNat < 4 ∨
      ((packet.drop 4).headD 0).toNat + 1 > r.rx.pktLen
  · simp only [hbad, if_true] at hrun ⊢
    exact giveUp_simulates (k := pure) (hrun.trans (by rw [bind_pure])) fun r => ⟨-1, rfl⟩
  simp only [hbad, if_false] at hrun ⊢
  rw [not_or] at hbad
  have hpayload : ∀ n, 5 + n ≤ packet.length →
      slice 5 n r = .ok ((packet.drop 5).take n, r) := by
    intro n hn
    rw [slice_eq (by omega), hbuf, slice_append hn]
  have hpacket' : slice 0 packet.length r = .ok (packet, r) := by
    rw [slice_eq (by omega), hbuf, List.drop_zero, List.take_left]
  have hmac : slice packet.length trailer r = .ok (behind.take trailer, r) := by
    rw [slice_eq (by omega), hbuf, List.drop_left]
  rw [bind_ok (hpayload _ (by omega)), bind_ok hpacket', bind_ok hmac] at hrun
  simp only [Simulates, wp_bind, wp_pure]
  refine wp_of_forall (fun ret l' hdispatch => ?_) fun e hdispatch => ?_
  · have hlink : onLink (dispatch handle ((packet.drop 5).take
        (r.rx.pktLen - 1 - ((packet.drop 4).headD 0).toNat)) packet (behind.take trailer)) r =
        .ok (ret, ⟨l', r.rx⟩) := by
      simp only [onLink, zoom, hdispatch]
    have hcompact : compact (packet.length + trailer) ⟨l', r.rx⟩ =
        .ok ((), ⟨l', { r.rx with buf := behind.drop trailer }⟩) := by
      unfold compact
      rw [if_pos (by dsimp only; omega), hbuf, ← List.drop_drop, List.drop_left]
    rw [bind_ok hlink, bind_ok hcompact] at hrun
    refine ⟨r.rx.pktLen, hrun.trans ?_⟩
    show (if ret < 0 ∨ l'.conn.state = .closed then pure (-1) else pure 1 : RecvM Int)
      ⟨l', ⟨behind.drop trailer, false, r.rx.pktLen⟩⟩ = _
    unfold returned
    split <;> rfl
  · rw [hrun]
    exact bind_error (by simp only [onLink, zoom, hdispatch])

variable (handle) in
/-- A decrypted packet is checked and handed over. -/
theorem checkPacket_simulates {d : Dir} {packet behind : Bytes} (hactive : d.active = true)
    (hbuf : r.rx.buf = packet ++ behind) (hpacket : packet.length = 4 + r.rx.pktLen)
    (hfive : 5 ≤ r.rx.pktLen) (htrailer : d.macLen ≤ behind.length) :
    Simulates (do
        if (← checkPacketMac E d packet.length) ≠ 0 then return -1
        finishPacket E handle packet.length (packet.length + d.macLen)) r
      (do
        if !(← macAccepted E d packet (behind.take d.macLen)) then return none
        handOver E handle r.rx.pktLen packet (behind.take d.macLen) (behind.drop d.macLen))
      r.link := by
  have hlength : r.rx.buf.length = packet.length + behind.length := by
    rw [hbuf, List.length_append]
  have hcheck : checkPacketMac E d packet.length r =
      onLink (compareMac E packet (behind.take d.macLen)) r := by
    unfold checkPacketMac
    rw [bind_ok (slice_eq (by omega)), bind_ok (slice_eq (by omega)), hbuf, List.drop_zero,
      List.take_left, List.drop_left]
  simp only [Simulates, macAccepted, if_pos hactive, wp_bind, wp_map]
  refine wp_of_forall (fun ret l' hcompare => ?_) fun e hcompare => ?_
  · have hrun : checkPacketMac E d packet.length r = .ok (ret, ⟨l', r.rx⟩) := by
      rw [hcheck]
      simp only [onLink, zoom, hcompare]
    by_cases hret : ret = 0
    · subst hret
      refine wp.ite (fun h => by simp at h) fun _ => ?_
      refine Simulates.congr (q := ⟨l', r.rx⟩) ?_
        (finishPacket_simulates handle hbuf hpacket hfive htrailer)
      rw [bind_ok hrun]
      rfl
    · refine wp.ite (fun _ => ?_) fun h => by simp [hret] at h
      refine ⟨-1, r.rx, ?_, .inr ((compareMac_closed _ _).ok hcompare hret)⟩
      rw [bind_ok hrun, if_pos hret]
      rfl
  · exact bind_error (by rw [hcheck]; simp only [onLink, zoom, hcompare])

theorem drop_eq_append {b : Bytes} {m n : ℕ} (h : m ≤ n) :
    b.drop m = (b.take n).drop m ++ b.drop n := by
  conv_rhs => rw [List.drop_take, show n = m + (n - m) by omega, ← List.drop_drop,
    Nat.add_sub_cancel_left, List.take_append_drop]

theorem completePacket_clear {d : Dir} (hactive : d.active = false) (total need : ℕ) :
    completePacket E handle d total need = finishPacket E handle total need := by
  simp [completePacket, hactive]

theorem completePacket_active {d : Dir} (hactive : d.active = true) (total need : ℕ) :
    completePacket E handle d total need = (do
      if (← checkMac E d total) ≠ 0 then return -1
      finishPacket E handle total need) := by
  simp [completePacket, hactive]

/-- The rest of a packet that came in the clear. -/
theorem completePacket_simulates_clear {d : Dir} {head b : Bytes} (hactive : d.active = false)
    (hbuf : r.rx.buf = head ++ b.drop head.length) (hhead : head.length = firstLen d)
    (hfive : 5 ≤ r.rx.pktLen) (htotal : head.length ≤ 4 + r.rx.pktLen)
    (hneed : 4 + r.rx.pktLen ≤ b.length) :
    Simulates (completePacket E handle d (4 + r.rx.pktLen) (4 + r.rx.pktLen)) r
      (do
        let some tail ← openBytes E d ((b.take (4 + r.rx.pktLen)).drop (firstLen d))
          | giveUp E discProtocolError "decrypt"
        let mac := (b.drop (4 + r.rx.pktLen)).take 0
        if !(← macAccepted E d (head ++ tail) mac) then return none
        handOver E handle r.rx.pktLen (head ++ tail) mac ((b.drop (4 + r.rx.pktLen)).drop 0))
      r.link := by
  have hpacket : (head ++ (b.take (4 + r.rx.pktLen)).drop (firstLen d)).length =
      4 + r.rx.pktLen := by
    simp only [List.length_append, List.length_drop, List.length_take]
    omega
  rw [drop_eq_append htotal, ← List.append_assoc, hhead] at hbuf
  have hfinish := finishPacket_simulates (E := E) handle hbuf hpacket hfive (Nat.zero_le _)
  rw [hpacket] at hfinish
  simp only [openBytes, macAccepted, hactive, completePacket_clear hactive]
  exact hfinish

/-- The rest of an encrypted packet. -/
theorem completePacket_simulates_active {d : Dir} {head b : Bytes} (hactive : d.active = true)
    (hbuf : r.rx.buf = head ++ b.drop head.length) (hhead : head.length = 16)
    (hfive : 5 ≤ r.rx.pktLen) (htotal : 16 ≤ 4 + r.rx.pktLen)
    (hneed : 4 + r.rx.pktLen + d.macLen ≤ b.length) :
    Simulates (completePacket E handle d (4 + r.rx.pktLen) (4 + r.rx.pktLen + d.macLen)) r
      (do
        let some tail ← openBytes E d ((b.take (4 + r.rx.pktLen)).drop 16)
          | giveUp E discProtocolError "decrypt"
        let mac := (b.drop (4 + r.rx.pktLen)).take d.macLen
        if !(← macAccepted E d (head ++ tail) mac) then return none
        handOver E handle r.rx.pktLen (head ++ tail) mac
          ((b.drop (4 + r.rx.pktLen)).drop d.macLen)) r.link := by
  have hmac : d.macLen ≤ (b.drop (4 + r.rx.pktLen)).length := by
    rw [List.length_drop]
    omega
  have htail : ((b.take (4 + r.rx.pktLen)).drop 16).length = 4 + r.rx.pktLen - 16 := by
    simp only [List.length_drop, List.length_take]
    omega
  rw [hhead, drop_eq_append htotal, ← List.append_assoc] at hbuf
  rw [completePacket_active hactive]
  by_cases hlong : 4 + r.rx.pktLen > 16
  · -- the part behind the first block is deciphered now
    have hdata : (b.take (4 + r.rx.pktLen)).drop 16 ≠ [] := by
      rw [← List.length_pos_iff, htail]
      omega
    generalize hcipher : (b.take (4 + r.rx.pktLen)).drop 16 = cipher at hbuf htail hdata ⊢
    have hbody : r.rx.buf.drop 16 = cipher ++ b.drop (4 + r.rx.pktLen) := by
      rw [hbuf, List.append_assoc, ← hhead, List.drop_left]
    have hrange : 16 + (4 + r.rx.pktLen - 16) ≤ r.rx.buf.length := by
      rw [hbuf]
      simp only [List.length_append]
      omega
    have hmiddle : (r.rx.buf.drop 16).take (4 + r.rx.pktLen - 16) = cipher := by
      rw [hbody, ← htail, List.take_left]
    have hback : r.rx.buf.drop (16 + (4 + r.rx.pktLen - 16)) = b.drop (4 + r.rx.pktLen) := by
      rw [← List.drop_drop, hbody, ← htail, List.drop_left]
    have hfront : r.rx.buf.take 16 = head := by
      rw [hbuf, List.append_assoc, ← hhead, List.take_left]
    have hdecrypt := decryptAt_eq (E := E) hrange
    rw [hmiddle, hfront, hback] at hdecrypt
    simp only [checkMac, openBytes, hlong, hactive, hdata, ne_eq, not_false_iff, and_self, if_true]
    simp only [Simulates, wp_bind]
    refine wp_of_forall (fun out l' hopen => ?_) fun e hopen => ?_
    · rw [hopen] at hdecrypt
      cases out with
      | none =>
          refine giveUp_simulates (l := l') (x := r.rx) (k := fun ret => do
            if ret ≠ 0 then return -1
            finishPacket E handle (4 + r.rx.pktLen) (4 + r.rx.pktLen + d.macLen)) ?_
            fun r => ⟨-1, rfl⟩
          rw [bind_assoc, bind_ok hdecrypt]
          rfl
      | some plain =>
          have hplain : plain.length = cipher.length :=
            ((show wp (decipher E cipher) _ anyFault _ from
              decipher_spec (A := True) _).ok hopen).2.1 plain rfl
          have hpacket : (head ++ plain).length = 4 + r.rx.pktLen := by
            rw [List.length_append, hplain, htail]
            omega
          have hcheck := checkPacket_simulates (E := E) handle (d := d)
            (r := ⟨l', { r.rx with buf := head ++ plain ++ b.drop (4 + r.rx.pktLen) }⟩)
            hactive rfl hpacket hfive hmac
          rw [hpacket] at hcheck
          refine Simulates.congr ?_ hcheck
          rw [bind_assoc, bind_ok hdecrypt]
          rfl
    · rw [hopen] at hdecrypt
      exact bind_error (bind_error hdecrypt)
  · -- a packet of one block, of which nothing is left to decipher
    have hdata : (b.take (4 + r.rx.pktLen)).drop 16 = [] := by
      rw [← List.length_eq_zero_iff, htail]
      omega
    have hpacket : (head ++ (b.take (4 + r.rx.pktLen)).drop 16).length = 4 + r.rx.pktLen := by
      rw [List.length_append, htail]
      omega
    have hcheck := checkPacket_simulates (E := E) handle hactive hbuf hpacket hfive hmac
    rw [hpacket] at hcheck
    simp only [checkMac, openBytes, hlong, hactive, hdata] at hcheck ⊢
    exact hcheck

/-- The rest of a packet. -/
theorem tryBody_simulates {head b : Bytes} (hbuf : r.rx.buf = head ++ b.drop head.length)
    (hhead : head.length = firstLen r.link.conn.inDir) (hfirst : head.length ≤ b.length)
    (hfive : 5 ≤ r.rx.pktLen) (htotal : head.length ≤ 4 + r.rx.pktLen) :
    Simulates (tryBody E handle) r
      (decodeBody E handle r.link.conn.inDir r.rx.pktLen head b) r.link := by
  have hlength : r.rx.buf.length = b.length := by
    rw [hbuf, List.length_append, List.length_drop]
    omega
  unfold decodeBody
  by_cases hshort : b.length < 4 + r.rx.pktLen + trailerLen r.link.conn.inDir
  · simp only [Simulates, hshort, if_true, wp_pure]
    refine ⟨0, r.rx, ?_, .inl rfl⟩
    rw [tryBody_eq, if_pos (by rw [hlength]; exact hshort)]
  simp only [hshort, if_false]
  rw [Nat.not_lt] at hshort
  refine Simulates.congr (tryBody_eq.trans (if_neg ?_)) ?_
  · rw [hlength]
    exact Nat.not_lt.mpr hshort
  cases hactive : r.link.conn.inDir.active with
  | false =>
      have hneed : needOf r = 4 + r.rx.pktLen := by
        simp [needOf, trailerLen, hactive]
      have htrailer : trailerLen r.link.conn.inDir = 0 := by
        simp [trailerLen, hactive]
      rw [hneed, htrailer]
      exact completePacket_simulates_clear hactive hbuf hhead hfive htotal (by omega)
  | true =>
      have htrailer : trailerLen r.link.conn.inDir = r.link.conn.inDir.macLen := by
        simp [trailerLen, hactive]
      have hfirstLen : firstLen r.link.conn.inDir = 16 := by
        simp [firstLen, hactive]
      rw [needOf, htrailer, hfirstLen]
      rw [hfirstLen] at hhead
      rw [htrailer] at hshort
      exact completePacket_simulates_active hactive hbuf hhead hfive (hhead ▸ htotal) hshort

theorem getU32_front {head rest : Bytes} (h : 4 ≤ head.length) :
    getU32 (((head ++ rest).drop 0).take 4) = getU32 head := by
  have hget : ∀ i < 4, (((head ++ rest).drop 0).take 4).getD i 0 = head.getD i 0 := by
    intro i hi
    rw [List.drop_zero, List.getD_eq_getElem?_getD, List.getD_eq_getElem?_getD,
      List.getElem?_take_of_lt hi, List.getElem?_append_left (by omega)]
  simp only [getU32, hget 0 (by decide), hget 1 (by decide), hget 2 (by decide), hget 3 (by decide)]

/-- Decoding reads nothing of a direction but whether it is active and its MAC type. -/
theorem decodeBody_congr {d d' : Dir} (hactive : d'.active = d.active)
    (hmac : d'.macType = d.macType) : decodeBody E handle d' = decodeBody E handle d := by
  cases d
  cases d'
  cases hactive
  cases hmac
  rfl

theorem firstLen_le_of_badLength {d : Dir} {n : ℕ} (h : badLength d n = false) :
    5 ≤ n ∧ firstLen d ≤ 4 + n := by
  simp only [badLength, blockOf, Bool.or_eq_false_iff, decide_eq_false_iff_not, ne_eq] at h
  obtain ⟨⟨hfive, -⟩, hblock⟩ := h
  refine ⟨by omega, ?_⟩
  cases hactive : d.active <;> simp only [firstLen, hactive, if_true] at hblock ⊢ <;> grind

/-- The length check, seen from a receiver whose buffer starts with the first block. -/
theorem checkLength_simulates {q : Receiver} {d : Dir} {head b : Bytes}
    (hrun : tryPacket E handle r = (do
      let header ← checkLength E d
      if header ≠ 1 then return header
      tryBody E handle : RecvM Int) q)
    (hbuf : q.rx.buf = head ++ b.drop head.length) (hhead : head.length = firstLen d)
    (hfirst : head.length ≤ b.length)
    (hactive : q.link.conn.inDir.active = d.active)
    (hmac : q.link.conn.inDir.macType = d.macType) :
    Simulates (tryPacket E handle) r (do
      let pktLen := (getU32 head).toNat
      if badLength d pktLen then return ← giveUp E discProtocolError "bad packet length"
      decodeBody E handle d pktLen head b) q.link := by
  have hfour : 4 ≤ head.length := by
    rw [hhead, firstLen]
    split <;> decide
  have hslice : slice 0 4 q = .ok (((q.rx.buf.drop 0).take 4), q) := by
    refine slice_eq ?_
    rw [hbuf, List.length_append]
    omega
  rw [hbuf] at hslice
  rw [checkLength, bind_assoc, bind_ok hslice, getU32_front hfour, bind_assoc,
    bind_ok (show setRx _ q = .ok ((), { q with rx := _ }) from rfl)] at hrun
  cases hbad : badLength d (getU32 head).toNat with
  | true =>
      simp only [hbad, if_true] at hrun ⊢
      exact giveUp_simulates hrun fun r => ⟨-1, rfl⟩
  | false =>
      obtain ⟨hfive, htotal⟩ := firstLen_le_of_badLength hbad
      simp only [hbad] at hrun ⊢
      -- the length is good: both go on to the body with the same first block
      have hbody : tryPacket E handle r = tryBody E handle
          { q with rx := ⟨q.rx.buf, true, (getU32 head).toNat⟩ } := by
        rw [hrun]
        rfl
      refine Simulates.congr hbody ?_
      rw [← decodeBody_congr hactive hmac]
      refine tryBody_simulates hbuf ?_ hfirst hfive (hhead ▸ htotal)
      rw [hhead, firstLen, firstLen, hactive]

variable (handle) in
/-- `TryProcessOne` at a packet boundary does what the decoder does. -/
theorem tryPacket_simulates (hlen : r.rx.haveLen = false) :
    Simulates (tryPacket E handle) r (decodePacket E handle r.rx.buf) r.link := by
  unfold decodePacket
  simp only [Simulates, wp_bind, LinkM.wp_conn]
  by_cases hshort : r.rx.buf.length < firstLen r.link.conn.inDir
  · simp only [hshort, if_true, wp_pure]
    refine ⟨0, r.rx, ?_, .inl rfl⟩
    unfold tryPacket
    rw [bind_ok (by rw [readHeader_eq, if_neg (by simp [hlen]), if_pos hshort])]
    rfl
  simp only [hshort, if_false, wp_bind]
  -- enough bytes for the first block: the header is parsed afresh
  have hheader : readHeader E r = parseHeader E r.link.conn.inDir r := by
    rw [readHeader_eq, if_neg (by simp [hlen]), if_neg hshort]
  have htry : tryPacket E handle r = (do
      let header ← parseHeader E r.link.conn.inDir
      if header ≠ 1 then return header
      tryBody E handle : RecvM Int) r := by
    unfold tryPacket
    simp only [bind, StateT.bind, Except.bind, hheader]
  rw [Nat.not_lt] at hshort
  have hhead : (r.rx.buf.take (firstLen r.link.conn.inDir)).length =
      firstLen r.link.conn.inDir := List.length_take_of_le hshort
  cases hactive : r.link.conn.inDir.active with
  | false =>
      have hparse : parseHeader E r.link.conn.inDir r = checkLength E r.link.conn.inDir r := by
        simp [parseHeader, hactive]
      simp only [openBytes, hactive]
      refine checkLength_simulates (q := r) ?_ ?_ hhead (hhead.trans_le hshort) rfl rfl
      · rw [htry]
        simp only [bind, StateT.bind, Except.bind, hparse]
      · rw [hhead, List.take_append_drop]
  | true =>
      have hfirst : firstLen r.link.conn.inDir = 16 := by
        simp [firstLen, hactive]
      rw [hfirst] at hshort hhead
      have hdata : r.rx.buf.take 16 ≠ [] := by
        rw [← List.length_pos_iff, hhead]
        decide
      have hdecrypt := decryptAt_eq (E := E) (show 0 + 16 ≤ r.rx.buf.length by omega)
      simp only [List.drop_zero, List.take_zero, List.nil_append, Nat.zero_add] at hdecrypt
      simp only [openBytes, hactive, hfirst, hdata, ne_eq, not_false_iff, and_self, if_true]
      refine wp_of_forall (fun out l' hopen => ?_) fun e hopen => ?_
      · rw [hopen] at hdecrypt
        cases out with
        | none =>
            refine giveUp_simulates (l := l') (x := r.rx) (k := fun header => do
              if header ≠ 1 then return header
              tryBody E handle) ?_ fun r => ⟨-1, rfl⟩
            rw [htry, parseHeader, if_pos hactive, bind_assoc, bind_ok hdecrypt]
            rfl
        | some plain =>
            have hspec : wp (decipher E (r.rx.buf.take 16)) _ anyFault r.link :=
              decipher_spec (A := True) _
            obtain ⟨-, hplain, hactive', hmac, -⟩ := hspec.ok hopen
            have hlength : plain.length = 16 := (hplain plain rfl).trans hhead
            refine checkLength_simulates (d := r.link.conn.inDir)
              (q := ⟨l', { r.rx with buf := plain ++ r.rx.buf.drop 16 }⟩) ?_ ?_
              (hlength.trans hfirst.symm) (hlength.trans_le hshort) hactive' hmac
            · rw [htry, parseHeader, if_pos hactive, bind_assoc, bind_ok hdecrypt]
              rfl
            · rw [hlength]
      · rw [hopen] at hdecrypt
        rw [htry, parseHeader, if_pos hactive]
        exact bind_error (bind_error hdecrypt)

/-! ## All packets -/

theorem decodeRounds_closed (n : ℕ) (b : Bytes) (hclosed : l.conn.state = .closed) :
    decodeRounds E n b l = .ok ((), l) := by
  cases n with
  | zero => rfl
  | succ n =>
      show (if l.conn.state = .closed then pure () else _ : LinkM Unit) l = _
      rw [if_pos hclosed]
      rfl

theorem decodeRounds_succ (n : ℕ) (b : Bytes) (hopen : l.conn.state ≠ .closed) :
    decodeRounds E (n + 1) b l = (do
      let some out ← decodePacket E (handlePacket E) b | return
      decodeRounds E n out.rest : LinkM Unit) l := by
  show (if l.conn.state = .closed then pure () else _ : LinkM Unit) l = _
  rw [if_neg hopen]

/-- Where the receiver ends is where the one-shot decoder ends. -/
theorem decodeRounds_eq {n : ℕ} (hr : Decoding r) (hlen : r.rx.haveLen = false)
    (hn : r.rx.buf.length < n) :
    ∃ r', (packetDecoder E).run r = .ok r' ∧
      decodeRounds E n r.rx.buf r.link = .ok ((), r'.link) := by
  induction n generalizing r with
  | zero => exact absurd hn (Nat.not_lt_zero _)
  | succ n ih =>
      by_cases hclosed : r.link.conn.state = .closed
      · have hstop := (packetDecoder E).run_stopped (decide_eq_true hclosed)
        exact ⟨r, hstop, decodeRounds_closed _ _ hclosed⟩
      obtain ⟨ret, r₁, hrun, -, hr₁⟩ := hr.returns (E := E)
      have hstep : attempt E r = .ok (decide (ret ≠ 0), r₁) := attempt_eq_ok.mpr ⟨ret, hrun, rfl⟩
      rw [tryProcessOne_eq hclosed hr.2] at hrun
      have hsim := tryPacket_simulates (E := E) (handlePacket E) hlen
      rw [decodeRounds_succ _ _ hclosed]
      cases hdecode : decodePacket E (handlePacket E) r.rx.buf r.link with
      | error e =>
          have herror := hsim.error hdecode
          rw [hrun] at herror
          cases herror
      | ok out =>
          obtain ⟨out, l₁⟩ := out
          have hmatch := hsim.ok hdecode
          rw [bind_ok hdecode]
          cases out with
          | some out =>
              -- a packet was decoded, so both go on with fewer bytes, or the connection is closed
              obtain ⟨pktLen, hrun'⟩ := hmatch
              rw [hrun] at hrun'
              cases hrun'
              have hret := returned_ne_zero out.answer l₁
              rw [decide_eq_true hret] at hstep
              rw [(packetDecoder E).run_of_progress hr (decide_eq_false hclosed) hstep]
              obtain ⟨ret', hprogress⟩ := attempt_progress hr hclosed hstep
              rcases hprogress.closed_or_shorter with hclosed₁ | hshorter
              · exact ⟨_, (packetDecoder E).run_stopped (decide_eq_true hclosed₁),
                  decodeRounds_closed _ _ hclosed₁⟩
              · exact ih hr₁ rfl (by omega)
          | none =>
              -- both stop, for want of bytes or because the packet was given up
              obtain ⟨ret', rx, hrun', hend⟩ := hmatch
              rw [hrun] at hrun'
              cases hrun'
              refine ⟨⟨l₁, rx⟩, ?_, rfl⟩
              by_cases hret : ret = 0
              · rw [hret] at hstep
                exact (packetDecoder E).run_of_wait (decide_eq_false hclosed) hstep
              · rw [decide_eq_true hret] at hstep
                rw [(packetDecoder E).run_of_progress hr (decide_eq_false hclosed) hstep]
                exact (packetDecoder E).run_stopped (decide_eq_true (hend.resolve_left hret))

/-! ## Verified dispatches -/

/-- A payload dispatched from an active direction came in a packet whose MAC is the one
under the key and the sequence number of that direction; `seq` counts the packet
already. -/
def VerifiedDispatches (E : Env) (log : List Event) : Prop :=
  ∀ payload packet mac c, .dispatch payload packet mac c ∈ log →
    (∃ len, payload = (packet.drop 5).take len) ∧ (c.inDir.active = true →
      mac = macOf E { c.inDir with seq := c.inDir.seq - 1 } packet)

theorem VerifiedDispatches.of_mem_iff {log log' : List Event} (h : VerifiedDispatches E log)
    (hmem : ∀ payload packet mac c,
      .dispatch payload packet mac c ∈ log' → .dispatch payload packet mac c ∈ log) :
    VerifiedDispatches E log' :=
  fun _ _ _ _ hdispatch => h _ _ _ _ (hmem _ _ _ _ hdispatch)

theorem Sends.verifiedDispatches {P : UInt8 → Prop} {u t : Session} (hsends : Sends P u t)
    (h : VerifiedDispatches E u.log) : VerifiedDispatches E t.log :=
  h.of_mem_iff fun _ _ _ _ => (hsends.mem_iff rfl).mp

theorem Step.verifiedDispatches {u t : Session} (hstep : Step E u t)
    (h : VerifiedDispatches E u.log) : VerifiedDispatches E t.log := by
  have hcons : ∀ e, (∀ payload packet mac c, e ≠ .dispatch payload packet mac c) →
      VerifiedDispatches E (e :: u.log) := fun e he =>
    h.of_mem_iff fun payload packet mac c hmem =>
      (List.mem_cons.mp hmem).resolve_left fun heq => he _ _ _ _ heq.symm
  have harrived : ∀ {p packet mac : Bytes}, Arrives E u p packet mac →
      VerifiedDispatches E (u.dispatched p packet mac).log := by
    intro p packet mac harrives payload' packet' mac' c hmem
    rcases List.mem_cons.mp hmem with heq | hmem
    · cases heq
      exact ⟨harrives.payload, harrives.mac⟩
    · exact h _ _ _ _ hmem
  cases hstep with
  | dispatch p packet mac harrives => exact harrived harrives
  | skipGuess harrives => exact harrived harrives
  | disconnect hend => exact hend.sends.verifiedDispatches h
  | reply _ _ hemit | closeReply _ _ _ _ hemit | writeLost _ _ hemit | writeData _ _ _ _ _ hemit =>
      exact hemit.sends.verifiedDispatches h
  | authAccepted _ _ _ _ hemit | authRejected _ _ _ _ _ hemit | openChannel _ _ _ _ _ _ _ _ hemit =>
      exact hemit.sends.verifiedDispatches (hcons _ (by simp))
  | authExhausted _ _ hend => exact hend.sends.verifiedDispatches (hcons _ (by simp))
  | firstKexInit _ _ _ hdone =>
      exact hdone.keeps (I := fun s => VerifiedDispatches E s.log) (fun _ _ hu => hu)
        (fun _ _ h => h.verifiedDispatches) h
  | firstKexInitFailed _ _ hfail =>
      exact hfail.keeps (I := fun s => VerifiedDispatches E s.log) (fun _ _ hu => hu)
        (fun _ _ h => h.verifiedDispatches) h
  | kexInit harrives _ hend =>
      exact hend.keeps (I := fun s => VerifiedDispatches E s.log) (fun _ _ hu => hu)
        (fun _ _ h => h.verifiedDispatches) (fun _ _ hu => hu) (harrived harrives)
  | exchange _ _ hend =>
      exact hend.keeps (I := fun s => VerifiedDispatches E s.log)
        (fun _ _ h => h.verifiedDispatches) (fun _ _ _ hu => hu) (hcons _ (by simp))
  | newKeys harrives _ hend =>
      exact hend.keeps (I := fun s => VerifiedDispatches E s.log)
        (fun _ _ h => h.verifiedDispatches) (fun _ hu => hu) (harrived harrives)
  | startClose _ _ _ _ hclose =>
      obtain ⟨_, hsends, rfl⟩ := hclose.sends
      exact hsends.verifiedDispatches h
  | versionSent | data | adjust | accepted | readEnd => exact hcons _ (by simp)
  | read max _ hcredit =>
      obtain ⟨_, _, hsends, rfl⟩ := hcredit.sends
      exact hsends.verifiedDispatches (hcons _ (by simp))
  | _ => exact h

theorem Reachable.verifiedDispatches {s : Server} (h : Reachable E s) :
    VerifiedDispatches E s.link.log :=
  h.invariant (I := fun s => VerifiedDispatches E s.log) (fun _ _ _ _ _ _ h => by cases h)
    fun _ _ => Step.verifiedDispatches

theorem pollTimes_verifiedDispatches {s : Server} (n : ℕ) (hs : Sound s.toReceiver)
    (h : VerifiedDispatches E s.link.log) :
    wp (pollTimes E n) (fun _ s' => VerifiedDispatches E s'.link.log) (· = .versionOverflow) s := by
  induction n generalizing s with
  | zero => exact h
  | succ n ih =>
      simp only [pollTimes, sshPoll, wp_bind, wp_pure]
      refine wp.imp (processInput_moves (A := True) hs fun _ => rfl) fun _ s₁ hmoves =>
        ih (hmoves.sound hs) ?_
      exact hmoves.1.invariant (I := fun s => VerifiedDispatches E s.log)
        (fun _ _ => Step.verifiedDispatches) h

/-! ## Chunking independence -/

variable {s : Server}

/-- The reads `cs`, one after the other. -/
def reads (cs : List Bytes) : List ReadResult := cs.map .data

theorem scriptBytes_reads (cs : List Bytes) : scriptBytes (reads cs) = cs.flatten := by
  induction cs with
  | nil => rfl
  | cons c cs ih => rw [List.flatten_cons, ← ih]; rfl

theorem intact_reads (cs : List Bytes) : Intact (reads cs) := by
  simp [Intact, reads]

/-- However the bytes are cut into reads, polling until they are used up leads to the
connection, the packets and the calls of the one-shot decoder; what it dispatched
under a key was verified under that key. -/
theorem chunking_independent (h : Reachable E s) (hversion : s.link.conn.state ≠ .version)
    (hempty : s.rx.buf = []) (cs : List Bytes) {n : ℕ}
    (hn : 2 * cs.flatten.length + cs.length < n) :
    ∃ s', pollTimes E n { s with input := reads cs } = .ok ((), s') ∧
      decodeAll E cs.flatten s.link = .ok ((), s'.link) ∧
      (s'.link.conn.state = .closed ∨ s'.input = []) ∧
      VerifiedDispatches E s'.link.log := by
  have hsound := h.sound
  -- a header that was read leaves its bytes in the buffer, and the buffer is empty
  have hlen : s.rx.haveLen = false := by
    cases hlen : s.rx.haveLen with
    | false => rfl
    | true =>
        have hfour := (hsound.header hlen).2.2.2
        rw [hempty] at hfour
        cases hfour
  have hdec : Decoding s.toReceiver := ⟨hsound, hversion⟩
  have hleft : Server.left { s with input := reads cs } < n := by
    simp only [Server.left, scriptBytes_reads, hempty]
    simpa [reads] using hn
  have hpoll := pollTimes_spec (E := E) (s := { s with input := reads cs }) hdec
    (intact_reads cs) hleft
  obtain ⟨_, s', hrun, honward, hdone⟩ := hpoll.returns
  refine ⟨s', hrun, ?_, hdone.imp_right And.left, ?_⟩
  · have hfeed : Decoding (s.toReceiver.feed cs.flatten) := hdec.feed _
    have hless : (s.toReceiver.feed cs.flatten).rx.buf.length < cs.flatten.length + 1 := by
      rw [Receiver.feed_buf, hempty]
      exact Nat.lt_succ_self _
    obtain ⟨r', hr', hdecode⟩ := decodeRounds_eq (E := E) hfeed hlen hless
    have hend := hdone.outcome
    have hstart : Server.outcome E { s with input := reads cs } = .ok r' := by
      rw [← hr', Server.outcome, scriptBytes_reads]
    rw [honward.outcome, hstart] at hend
    have hlink : r'.link = s'.link := Except.ok.inj hend
    rw [Receiver.feed_buf, hempty, hlink] at hdecode
    exact hdecode
  · exact (pollTimes_verifiedDispatches (s := { s with input := reads cs }) n hsound
      h.verifiedDispatches).ok hrun

/-- A service request that arrives in two pieces. -/
theorem chunking_independent_service_request : ∃ s s', Reachable (plainEnv fun _ _ => true) s ∧
    pollTimes (plainEnv fun _ _ => true) 1000
        { s with input := reads [(sealedFrame serviceRequest).take 5,
          (sealedFrame serviceRequest).drop 5] } = .ok ((), s') ∧
      decodeAll (plainEnv fun _ _ => true) (sealedFrame serviceRequest) s.link =
        .ok ((), s'.link) := by
  obtain ⟨s, hreach, hversion, hempty⟩ := exists_reachable (E := plainEnv fun _ _ => true)
    (P := fun s => s.link.conn.state ≠ .version ∧ s.rx.buf = []) [.poll] [.data clientKex]
    (by decide +kernel)
  obtain ⟨s', hpoll, hdecode, -, -⟩ := chunking_independent hreach hversion hempty
    [(sealedFrame serviceRequest).take 5, (sealedFrame serviceRequest).drop 5]
    (n := 1000) (by decide)
  exact ⟨s, s', hreach, hpoll, hdecode⟩

end EfiSshServer
