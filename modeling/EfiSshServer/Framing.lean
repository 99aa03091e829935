import EfiSshServer.OneShot

/-!
# The framing round trip

`SendPacket` on one side and `TryProcessOne` on the other are inverse to each
other: the frames of a list of payloads are taken apart into the same payloads,
whatever the random padding, and the two directions agree again behind them.

`Framed` says what a run of `SendPacket` puts on the wire; the receiving half
goes through the one-shot decoder.
-/

namespace EfiSshServer

open StateProgram LinkM RecvM

variable {E S R : Env} {handle : Bytes → LinkM Int} {l : Link} {r : Receiver}

/-! ## The keystream -/

@[simp] theorem length_aesCtr (a : Aes) (x : Bytes) : (aesCtr E a x).1.length = x.length := by
  simp [aesCtr]

theorem getElem_aesCtr (a : Aes) (x : Bytes) {i : ℕ} (hx : i < x.length)
    (hi : i < (aesCtr E a x).1.length) :
    (aesCtr E a x).1[i] = x[i] ^^^ E.keystream a.key a.iv (a.pos + i) := by
  simp [aesCtr]

/-- The keystream is used up in order. -/
theorem aesCtr_append (a : Aes) (x y : Bytes) :
    (aesCtr E a (x ++ y)).1 = (aesCtr E a x).1 ++ (aesCtr E (aesCtr E a x).2 y).1 := by
  refine List.ext_getElem (by simp) fun i hi hi' => ?_
  have hxy : i < (x ++ y).length := by simpa using hi
  rw [getElem_aesCtr _ _ hxy]
  by_cases hx : i < x.length
  · rw [List.getElem_append_left hx, List.getElem_append_left (by simpa using hx),
      getElem_aesCtr _ _ hx]
  · rw [Nat.not_lt] at hx
    rw [List.length_append] at hxy
    rw [List.getElem_append_right hx, List.getElem_append_right (by simpa using hx),
      getElem_aesCtr _ _ (by rw [length_aesCtr]; omega)]
    simp only [length_aesCtr]
    congr 2
    simp only [aesCtr]
    omega

/-- Enciphering twice gives the data back. -/
theorem aesCtr_aesCtr (a : Aes) (x : Bytes) : (aesCtr E a (aesCtr E a x).1).1 = x := by
  refine List.ext_getElem (by simp) fun i hi hi' => ?_
  rw [getElem_aesCtr _ _ (by simpa using hi'), getElem_aesCtr _ _ hi', UInt8.xor_assoc,
    UInt8.xor_self, UInt8.xor_zero]

/-! ## Frames -/

/-- Bytes of a packet as they go over the wire. -/
def sealBytes (E : Env) (d : Dir) (x : Bytes) : Bytes :=
  if d.active then (aesCtr E d.aes x).1 else x

/-- A packet as it goes over the wire, with the MAC behind it. -/
def sealPacket (E : Env) (d : Dir) (packet : Bytes) : Bytes :=
  sealBytes E d packet ++ if d.active then macOf E d packet else []

/-- A direction behind `n` bytes of a packet. -/
def Dir.skip (d : Dir) (n : ℕ) : Dir :=
  { d with aes := if d.active then { d.aes with pos := d.aes.pos + n } else d.aes }

theorem Dir.skip_of_inactive {d : Dir} (h : d.active = false) (n : ℕ) : d.skip n = d := by
  cases d
  cases h
  rfl

theorem Dir.skip_of_active {d : Dir} (h : d.active = true) (n : ℕ) :
    d.skip n = { d with aes := { d.aes with pos := d.aes.pos + n } } := by
  rw [Dir.skip, if_pos h]

theorem Dir.skip_zero (d : Dir) : d.skip 0 = d := by
  simp [Dir.skip]

theorem Dir.skip_skip (d : Dir) (m n : ℕ) : (d.skip m).skip n = d.skip (m + n) := by
  cases hactive : d.active with
  | false => simp only [Dir.skip_of_inactive hactive]
  | true =>
      have hactive' : (d.skip m).active = true := hactive
      rw [Dir.skip_of_active hactive', Dir.skip_of_active hactive, Dir.skip_of_active hactive]
      simp only [Nat.add_assoc]

/-- A direction behind a packet of `n` bytes. -/
def Dir.advance (d : Dir) (n : ℕ) : Dir := { d.skip n with seq := d.seq + 1 }

/-- The frames `SendPacket` makes of a list of payloads, with some padding of the
length it computes. -/
inductive Framed (E : Env) : Dir → List Bytes → List Bytes → Dir → Prop
  | nil (d : Dir) : Framed E d [] [] d
  | cons {d d' : Dir} {p pad : Bytes} {ps frames : List Bytes}
      (hpad : pad.length = padLenOf (blockOf d) p.length)
      (h : Framed E (d.advance (plainPacket p pad).length) ps frames d') :
      Framed E d (p :: ps) (sealPacket E d (plainPacket p pad) :: frames) d'

/-- What a receiver is told of the payloads it took. -/
def dispatched (log : List Event) : List Bytes :=
  log.reverse.filterMap fun
    | .dispatch p _ _ _ => some p
    | _ => none

/-- What the write callback was given. -/
def written (calls : List Call) : List Bytes :=
  calls.reverse.filterMap fun
    | .write frame => some frame
    | _ => none

theorem length_plainPacket (p pad : Bytes) :
    (plainPacket p pad).length = 5 + p.length + pad.length := by
  simp only [plainPacket, List.length_append, length_putU32, List.length_cons]
  omega

theorem blockOf_eq (d : Dir) : blockOf d = 8 ∨ blockOf d = 16 := by
  unfold blockOf
  split
  · exact .inr rfl
  · exact .inl rfl

/-- The padding is long enough, no longer than a block and three bytes, and fills up
the last block. -/
theorem padLenOf_spec {blk : ℕ} (hblk : blk = 8 ∨ blk = 16) (len : ℕ) :
    4 ≤ padLenOf blk len ∧ padLenOf blk len ≤ 19 ∧ (5 + len + padLenOf blk len) % blk = 0 := by
  unfold padLenOf
  rcases hblk with rfl | rfl <;> simp only <;> split <;> omega

theorem length_macOf (E : Env) (d : Dir) (packet : Bytes) :
    (macOf E d packet).length = d.macLen := by
  simp [macOf, Dir.macLen]

@[simp] theorem length_sealBytes (E : Env) (d : Dir) (x : Bytes) :
    (sealBytes E d x).length = x.length := by
  unfold sealBytes
  split <;> simp

theorem length_sealPacket (E : Env) (d : Dir) (packet : Bytes) :
    (sealPacket E d packet).length = packet.length + trailerLen d := by
  unfold sealPacket trailerLen
  split <;> simp [length_macOf]

/-- A packet may be sealed in two parts. -/
theorem sealBytes_append (E : Env) (d : Dir) (x y : Bytes) :
    sealBytes E d (x ++ y) = sealBytes E d x ++ sealBytes E (d.skip x.length) y := by
  unfold sealBytes Dir.skip
  cases d.active with
  | false => rfl
  | true => exact aesCtr_append d.aes x y

/-- What `SendPacket` promises of the frame of a payload: whole blocks, a padding
between 4 and 255 bytes, and no more bytes than the transmit buffer holds. -/
def WellFramed (E : Env) (blk : ℕ) (p frame : Bytes) : Prop :=
  ∃ d pad, frame = sealPacket E d (plainPacket p pad) ∧ blockOf d = blk ∧
    (plainPacket p pad).length % blk = 0 ∧ 4 ≤ pad.length ∧ pad.length ≤ 255 ∧
    (plainPacket p pad).length + trailerLen d ≤ sshTxBuf

theorem Framed.wellFramed {d d' : Dir} {ps frames : List Bytes} (h : Framed E d ps frames d')
    (hmax : ∀ p ∈ ps, p.length + 64 ≤ sshMaxPacket) :
    List.Forall₂ (WellFramed E (blockOf d)) ps frames := by
  induction h with
  | nil => exact .nil
  | @cons d d' p pad ps frames hpad h ih =>
      obtain ⟨hfour, hnineteen, hblock⟩ := padLenOf_spec (blockOf_eq d) p.length
      rw [← hpad] at hfour hnineteen hblock
      have hp := hmax p List.mem_cons_self
      have htrailer := trailerLen_le d
      refine .cons ⟨d, pad, rfl, rfl, ?_, hfour, by omega, ?_⟩ (ih fun p hp =>
        hmax p (List.mem_cons_of_mem _ hp))
      · rw [length_plainPacket, hblock]
      · rw [length_plainPacket]
        simp only [sshMaxPacket, sshTxBuf] at hp ⊢
        omega

/-! ## The sender -/

/-- The RNG, the HMAC and the cipher never fail. -/
structure CryptoWorks (E : Env) : Prop where
  random : ∀ calls n, E.random calls n ≠ none
  hmac : ∀ calls, E.hmacOk calls = true
  aes : ∀ calls, E.aesOk calls = true

@[simp] theorem written_cons_write (calls : List Call) (frame : Bytes) :
    written (.write frame :: calls) = written calls ++ [frame] := by
  simp [written]

theorem written_cons {call : Call} (h : ∀ frame, call ≠ .write frame) (calls : List Call) :
    written (call :: calls) = written calls := by
  cases call <;> simp_all [written]

/-- A send over a transport that accepts all bytes. -/
inductive SendResult (E : Env) (p : Bytes) (l : Link) : Int → Link → Prop
  | sent {l' : Link} {pad : Bytes} (hstate : l'.conn.state = l.conn.state)
      (hpad : pad.length = padLenOf (blockOf l.conn.outDir) p.length)
      (hdir : l'.conn.outDir = l.conn.outDir.advance (plainPacket p pad).length)
      (hwritten : written l'.calls =
        written l.calls ++ [sealPacket E l.conn.outDir (plainPacket p pad)]) :
      SendResult E p l 0 l'
  | refused {l' : Link} (hcrypto : ¬ CryptoWorks E) (hconn : l'.conn = l.conn)
      (hwritten : written l'.calls = written l.calls) : SendResult E p l (-1) l'

theorem sendPacket_result (hwr : ∀ calls frame, E.wr calls frame = true) {p : Bytes}
    (hopen : l.conn.state ≠ .closed) (hlen : p.length + 64 ≤ sshMaxPacket) :
    wp (sendPacket E p) (SendResult E p l) (fun _ => False) l := by
  simp only [sendPacket, framePacket, framePacket.transmit, wp_bind, LinkM.wp_conn,
    LinkM.wp_record, wp_pure]
  refine wp.ite (fun h => absurd h (not_or.mpr ⟨hopen, Nat.not_lt.mpr hlen⟩)) fun _ => ?_
  simp only [wp_bind, LinkM.wp_ask]
  generalize hpad : padLenOf (blockOf l.conn.outDir) p.length = padLen
  -- questions to the platform write nothing
  have hrandom : ∀ calls, written (.random padLen :: calls) = written calls := fun calls =>
    written_cons (by simp) calls
  have hhmac : ∀ calls, written (.hmac :: calls) = written calls := fun calls =>
    written_cons (by simp) calls
  have haes : ∀ calls, written (.aes :: calls) = written calls := fun calls =>
    written_cons (by simp) calls
  -- a refused request leaves the link as it was; else the frame is on the wire
  cases hpadding : E.random l.calls padLen with
  | none =>
      refine .refused (fun hcrypto => hcrypto.random _ _ hpadding) rfl ?_
      exact hrandom _
  | some pad =>
      have hlength : pad.toList.length = padLenOf (blockOf l.conn.outDir) p.length := by
        rw [hpad, List.Vector.toList_length]
      refine wp.ite (fun hactive => ?_) fun hactive => ?_
      · simp only [wp_bind, LinkM.wp_ask]
        refine wp.ite (fun hfail => ?_) fun _ => ?_
        · refine .refused (fun hcrypto => ?_) rfl ?_
          · simp [hcrypto.hmac] at hfail
          · exact (hhmac _).trans (hrandom _)
        simp only [wp_bind, LinkM.wp_ask]
        refine wp.ite (fun hfail => ?_) fun _ => ?_
        · refine .refused (fun hcrypto => ?_) rfl ?_
          · simp [hcrypto.aes] at hfail
          · exact (haes _).trans ((hhmac _).trans (hrandom _))
        simp only [wp_bind, LinkM.wp_ask, LinkM.wp_update, hwr, if_true, wp_pure]
        refine .sent rfl hlength ?_ ?_
        · simp only [Dir.advance, Dir.skip, hactive, if_true]
          rfl
        · rw [written_cons_write, haes, hhmac, hrandom, sealPacket, sealBytes, if_pos hactive,
            if_pos hactive]
      · simp only [wp_bind, LinkM.wp_ask, LinkM.wp_update, hwr, if_true, wp_pure]
        refine .sent rfl hlength ?_ ?_
        · simp only [Dir.advance, Dir.skip, hactive]
          rfl
        · rw [written_cons_write, hrandom, sealPacket, sealBytes, if_neg hactive, if_neg hactive,
            List.append_nil]

/-- Send payload after payload; the ones `SendPacket` took are returned. -/
def sendAll (E : Env) : List Bytes → LinkM (List Bytes)
  | [] => return []
  | p :: ps => do
      let ret ← sendPacket E p
      let sent ← sendAll E ps
      return if ret = 0 then p :: sent else sent

theorem sendAll_framed (hwr : ∀ calls frame, E.wr calls frame = true) {ps : List Bytes}
    (hopen : l.conn.state ≠ .closed) (hmax : ∀ p ∈ ps, p.length + 64 ≤ sshMaxPacket) :
    wp (sendAll E ps) (fun sent l' => sent.Sublist ps ∧ (CryptoWorks E → sent = ps) ∧
      ∃ frames, written l'.calls = written l.calls ++ frames ∧
        Framed E l.conn.outDir sent frames l'.conn.outDir) (fun _ => False) l := by
  induction ps generalizing l with
  | nil => exact ⟨.slnil, fun _ => rfl, [], (List.append_nil _).symm, .nil _⟩
  | cons p ps ih =>
      simp only [sendAll, wp_bind, wp_pure]
      refine wp.imp (sendPacket_result hwr hopen (hmax p List.mem_cons_self)) fun ret l₁ hres => ?_
      have hmax' : ∀ p ∈ ps, p.length + 64 ≤ sshMaxPacket := fun p hp =>
        hmax p (List.mem_cons_of_mem _ hp)
      cases hres with
      | sent hstate hpad hdir hwritten =>
          refine wp.imp (ih (hstate ▸ hopen) hmax') fun sent l₂ ⟨hsub, hall, frames, hw, h⟩ => ?_
          refine ⟨hsub.cons_cons p, fun hcrypto => by rw [hall hcrypto]; rfl, _ :: frames, ?_,
            .cons hpad (hdir ▸ h)⟩
          rw [hw, hwritten, List.append_assoc]
          rfl
      | refused hcrypto hconn hwritten =>
          refine wp.imp (ih (hconn ▸ hopen) hmax') fun sent l₂ ⟨hsub, hall, frames, hw, h⟩ => ?_
          refine ⟨hsub.cons p, fun hworks => absurd hworks hcrypto, frames, ?_, hconn ▸ h⟩
          rw [hw, hwritten]

/-! ## The receiver -/

/-- A receiving direction is where the sending one is. -/
structure Agrees (d d' : Dir) : Prop where
  active : d'.active = d.active
  seq : d'.seq = d.seq
  keys : d.active = true → d'.aes = d.aes ∧ d'.macKey = d.macKey ∧ d'.macType = d.macType

theorem Agrees.skip {d d' : Dir} (h : Agrees d d') (n : ℕ) : Agrees (d.skip n) (d'.skip n) := by
  refine ⟨h.active, h.seq, fun hactive => ?_⟩
  have hactive : d.active = true := hactive
  obtain ⟨haes, hkey, htype⟩ := h.keys hactive
  refine ⟨?_, hkey, htype⟩
  simp only [Dir.skip, h.active, hactive, haes]

theorem Agrees.advance {d d' : Dir} (h : Agrees d d') (n : ℕ) :
    Agrees (d.advance n) (d'.advance n) :=
  ⟨h.active, congrArg (· + 1) h.seq, (h.skip n).keys⟩

/-- The receiver's platform computes the sender's ciphers, and they do not fail. -/
structure Deciphers (S R : Env) : Prop where
  keystream : R.keystream = S.keystream
  hmac : R.hmac = S.hmac
  hmacOk : ∀ calls, R.hmacOk calls = true
  aesOk : ∀ calls, R.aesOk calls = true

/-- The dispatch of `p` is opaque: the handler keeps the connection open and its
incoming direction as it is. -/
def Handles (handle : Bytes → LinkM Int) (p : Bytes) : Prop :=
  ∀ l : Link, l.conn.state ≠ .version → ∃ ret l', handle p l = .ok (ret, l') ∧ 0 ≤ ret ∧
    l'.conn.inDir = l.conn.inDir ∧ l'.conn.state = l.conn.state ∧
    dispatched l'.log = dispatched l.log

/-- Bytes in the clear, when the two directions agree. -/
theorem openBytes_seal (hR : Deciphers S R) {d d' : Dir} (hactive : d'.active = d.active)
    (hdir : l.conn.inDir.active = d.active)
    (hkey : d.active = true → l.conn.inDir.aes = d.aes) (x : Bytes) :
    wp (openBytes R d' (sealBytes S d x)) (fun out l' => out = some x ∧
      l'.conn = { l.conn with inDir := l.conn.inDir.skip x.length } ∧ l'.log = l.log)
      (fun _ => False) l := by
  unfold openBytes sealBytes
  cases hd : d.active with
  | false =>
      rw [hd] at hactive hdir
      rw [Dir.skip_of_inactive hdir]
      refine wp.ite (fun hdata => ?_) fun _ => ⟨rfl, rfl, rfl⟩
      rw [hactive] at hdata
      exact absurd hdata.1 (by decide)
  | true =>
      rw [hd] at hactive hdir
      rw [if_pos rfl]
      refine wp.ite (fun hdata => ?_) fun hdata => ?_
      · simp only [decipher, wp_bind, LinkM.wp_ask, hR.aesOk]
        refine wp.ite (fun h => absurd h (by decide)) fun _ => ?_
        simp only [wp_bind, LinkM.wp_conn, LinkM.wp_update, wp_pure, hkey hd]
        have hsame : aesCtr R d.aes (aesCtr S d.aes x).1 = aesCtr S d.aes (aesCtr S d.aes x).1 := by
          simp only [aesCtr, hR.keystream]
        refine ⟨?_, ?_, trivial⟩
        · rw [hsame, aesCtr_aesCtr]
        · rw [Dir.skip_of_active hdir, hkey hd, hsame]
          simp [aesCtr]
      · obtain rfl : x = [] := by
          rw [not_and, not_not] at hdata
          rw [← List.length_eq_zero_iff, ← length_aesCtr (E := S) d.aes, hdata hactive]
          rfl
        rw [List.length_nil, Dir.skip_zero]
        exact ⟨rfl, rfl, rfl⟩

theorem macOf_agrees (hR : Deciphers S R) {d d' : Dir} (hactive : d.active = true)
    (h : Agrees d d') (n : ℕ) (packet : Bytes) : macOf R (d'.skip n) packet = macOf S d packet := by
  obtain ⟨-, hkey, htype⟩ := h.keys hactive
  have hseq := h.seq
  cases d
  cases d'
  subst hkey htype hseq
  simp only [macOf, Dir.skip, Dir.macLen, hR.hmac]

/-- The MAC behind a packet is accepted. -/
theorem macAccepted_seal (hR : Deciphers S R) {d d' : Dir} {n : ℕ} (h : Agrees d d')
    (hdir : l.conn.inDir = d'.skip n) (packet : Bytes) :
    wp (macAccepted R d' packet (if d.active then macOf S d packet else []))
      (fun ok l' => ok = true ∧ l'.toSession = l.toSession) (fun _ => False) l := by
  unfold macAccepted
  refine wp.ite (fun hactive => ?_) fun _ => ⟨rfl, rfl⟩
  have hd : d.active = true := h.active ▸ hactive
  simp only [compareMac, wp_bind, wp_map, LinkM.wp_ask, hR.hmacOk]
  refine wp.ite (fun hfail => absurd hfail (by decide)) fun _ => ?_
  simp only [wp_bind, LinkM.wp_conn, hdir, macOf_agrees hR hd h, hd, if_true]
  refine wp.ite (fun hne => absurd rfl hne) fun _ => ⟨rfl, rfl⟩

theorem Handles.wp {p : Bytes} (hp : Handles handle p) (hversion : l.conn.state ≠ .version) :
    StateProgram.wp (handle p) (fun ret l' => 0 ≤ ret ∧ l'.conn.inDir = l.conn.inDir ∧
      l'.conn.state = l.conn.state ∧ dispatched l'.log = dispatched l.log) (fun _ => False) l := by
  obtain ⟨ret, l', hrun, h⟩ := hp l hversion
  exact wp_of_run hrun h

/-- What a receiver has done with a packet whose payload is `p`. -/
structure Took (d' : Dir) (p rest : Bytes) (l : Link) (out : Option Decoded) (l' : Link) :
    Prop where
  out : ∃ ret, 0 ≤ ret ∧ out = some ⟨ret, rest⟩
  inDir : l'.conn.inDir = d'
  state : l'.conn.state = l.conn.state
  dispatched : dispatched l'.log = EfiSshServer.dispatched l.log ++ [p]

/-- The payload of a packet and its padding are told apart again. -/
theorem handOver_seal {p pad packet mac rest : Bytes} (hp : Handles handle p)
    (hpacket : packet = plainPacket p pad) (hfour : 4 ≤ pad.length) (hmax : pad.length < 256)
    (hversion : l.conn.state ≠ .version) :
    wp (handOver R handle (1 + p.length + pad.length) packet mac rest)
      (Took { l.conn.inDir with seq := l.conn.inDir.seq + 1 } p rest l) (fun _ => False) l := by
  have hpad : ((packet.drop 4).headD 0).toNat = pad.length := by
    rw [hpacket, plainPacket]
    exact UInt8.toNat_ofNat_of_lt hmax
  have hpayload : (packet.drop 5).take (1 + p.length + pad.length - 1 - pad.length) = p := by
    rw [show 1 + p.length + pad.length - 1 - pad.length = p.length by omega, hpacket, plainPacket]
    exact List.take_left
  unfold handOver
  simp only [hpad, hpayload]
  refine wp.ite (fun hbad => absurd hbad (by omega)) fun _ => ?_
  simp only [dispatch, wp_bind, LinkM.wp_update, LinkM.wp_record, wp_pure]
  refine wp.imp (hp.wp hversion) fun ret l' h => ?_
  obtain ⟨hret, hdir, hstate, hlog⟩ := h
  refine ⟨⟨ret, hret, rfl⟩, hdir, hstate, ?_⟩
  rw [hlog]
  simp [EfiSshServer.dispatched]

theorem getU32_head {p pad head tail : Bytes} (hsplit : plainPacket p pad = head ++ tail)
    (hhead : 4 ≤ head.length) (hmax : 1 + p.length + pad.length < 2 ^ 32) :
    (getU32 head).toNat = 1 + p.length + pad.length := by
  have hget : getU32 head = UInt32.ofNat (1 + p.length + pad.length) := by
    rw [← getU32_front hhead, ← hsplit, plainPacket, List.drop_zero,
      List.take_left' (length_putU32 _), ← List.append_nil (putU32 _), getU32_putU32_append]
  rw [hget]
  exact UInt32.toNat_ofNat_of_lt hmax

/-- The length field of a packet from `SendPacket` passes the receiver's check. -/
theorem badLength_seal {d : Dir} {p pad : Bytes}
    (hpad : pad.length = padLenOf (blockOf d) p.length) (hmax : p.length + 64 ≤ sshMaxPacket) :
    badLength d (1 + p.length + pad.length) = false := by
  obtain ⟨hfour, hnineteen, hblock⟩ := padLenOf_spec (blockOf_eq d) p.length
  rw [← hpad] at hfour hnineteen hblock
  have htotal : 4 + (1 + p.length + pad.length) = 5 + p.length + pad.length := by omega
  simp only [sshMaxPacket] at hmax
  simp only [badLength, htotal, hblock, sshMaxPacket, Bool.or_eq_false_iff,
    decide_eq_false_iff_not, ne_eq]
  refine ⟨⟨?_, ?_⟩, not_not_intro trivial⟩ <;> omega

theorem length_mac (E : Env) (d : Dir) (packet : Bytes) :
    (if d.active then macOf E d packet else []).length = trailerLen d := by
  unfold trailerLen
  split
  · exact length_macOf E d packet
  · rfl

theorem Agrees.trailerLen {d d' : Dir} (h : Agrees d d') : trailerLen d' = trailerLen d := by
  unfold EfiSshServer.trailerLen Dir.macLen
  rw [h.active]
  split
  · next hactive => rw [(h.keys hactive).2.2]
  · rfl

/-- The decoder takes a sealed packet apart. -/
theorem decodePacket_seal (rest : Bytes) (hR : Deciphers S R) {d : Dir}
    (h : Agrees d l.conn.inDir) {p pad : Bytes} (hpad : pad.length = padLenOf (blockOf d) p.length)
    (hmax : p.length + 64 ≤ sshMaxPacket) (hp : Handles handle p)
    (hversion : l.conn.state ≠ .version) :
    wp (decodePacket R handle (sealPacket S d (plainPacket p pad) ++ rest))
      (Took (l.conn.inDir.advance (plainPacket p pad).length) p rest l) (fun _ => False) l := by
  obtain ⟨hfour, hnineteen, -⟩ := padLenOf_spec (blockOf_eq d) p.length
  rw [← hpad] at hfour hnineteen
  have hblock : blockOf l.conn.inDir = blockOf d := by
    rw [blockOf, blockOf, h.active]
  have hbad : badLength l.conn.inDir (1 + p.length + pad.length) = false :=
    badLength_seal (hblock ▸ hpad) hmax
  obtain ⟨-, hfirst⟩ := firstLen_le_of_badLength hbad
  have hlength := length_plainPacket p pad
  -- The packet in the two parts in which it is deciphered.
  obtain ⟨head, tail, hsplit, hhead⟩ : ∃ head tail, plainPacket p pad = head ++ tail ∧
      head.length = firstLen l.conn.inDir :=
    ⟨(plainPacket p pad).take (firstLen l.conn.inDir), _, (List.take_append_drop _ _).symm,
      List.length_take_of_le (by omega)⟩
  have hheadFour : 4 ≤ head.length := by
    rw [hhead, firstLen]
    split <;> decide
  have htotal : 4 + (1 + p.length + pad.length) = head.length + tail.length := by
    rw [← List.length_append, ← hsplit]
    omega
  generalize hmac : (if d.active then macOf S d (plainPacket p pad) else []) = mac
  have hmacLen : mac.length = trailerLen l.conn.inDir := by
    rw [← hmac, length_mac, h.trailerLen]
  have hsealed : sealPacket S d (plainPacket p pad) ++ rest =
      sealBytes S d head ++ (sealBytes S (d.skip head.length) tail ++ (mac ++ rest)) := by
    rw [sealPacket, hmac, hsplit, sealBytes_append]
    simp only [List.append_assoc]
  have htake : (sealPacket S d (plainPacket p pad) ++ rest).take (firstLen l.conn.inDir) =
      sealBytes S d head := by
    rw [hsealed, List.take_left' (by rw [length_sealBytes, hhead])]
  have hbody : ((sealPacket S d (plainPacket p pad) ++ rest).take
      (4 + (1 + p.length + pad.length))).drop (firstLen l.conn.inDir) =
        sealBytes S (d.skip head.length) tail := by
    rw [hsealed, ← List.append_assoc, List.take_left' (by simp [htotal]),
      List.drop_left' (by rw [length_sealBytes, hhead])]
  have hbehind : (sealPacket S d (plainPacket p pad) ++ rest).drop
      (4 + (1 + p.length + pad.length)) = mac ++ rest := by
    rw [hsealed, ← List.append_assoc, List.drop_left' (by simp [htotal])]
  have hlong : 4 + (1 + p.length + pad.length) + trailerLen l.conn.inDir ≤
      (sealPacket S d (plainPacket p pad) ++ rest).length := by
    rw [List.length_append, length_sealPacket, hlength, h.trailerLen]
    omega
  generalize sealPacket S d (plainPacket p pad) ++ rest = b at htake hbody hbehind hlong ⊢
  simp only [decodePacket, wp_bind, LinkM.wp_conn]
  refine wp.ite (fun hshort => absurd hshort (by omega)) fun _ => ?_
  simp only [wp_bind, htake]
  refine wp.imp (openBytes_seal hR h.active h.active (fun hactive => (h.keys hactive).1) head)
    fun out l₁ h₁ => ?_
  obtain ⟨hout, hconn₁, hlog₁⟩ := h₁
  subst hout
  have hpktLen := getU32_head hsplit hheadFour (by
    simp only [sshMaxPacket] at hmax
    omega)
  simp only [hpktLen, hbad]
  refine wp.ite (fun hfalse => absurd hfalse (by decide)) fun _ => ?_
  simp only [decodeBody]
  refine wp.ite (fun hshort => absurd hshort (by omega)) fun _ => ?_
  simp only [wp_bind, hbody, hbehind]
  have hagree : Agrees (d.skip head.length) l₁.conn.inDir := by
    rw [hconn₁]
    exact h.skip head.length
  have hopen := openBytes_seal (d := d.skip head.length) hR h.active hagree.active
    (fun hactive => (hagree.keys hactive).1) tail
  refine wp.imp hopen fun out l₂ h₂ => ?_
  obtain ⟨hout, hconn₂, hlog₂⟩ := h₂
  subst hout
  have hdir₂ : l₂.conn.inDir = l.conn.inDir.skip (plainPacket p pad).length := by
    rw [hconn₂, hconn₁, hsplit, List.length_append]
    exact Dir.skip_skip _ _ _
  simp only [wp_bind, ← hsplit, List.take_left' hmacLen, List.drop_left' hmacLen]
  rw [← hmac]
  refine wp.imp (macAccepted_seal hR h hdir₂ _) fun ok l₃ h₃ => ?_
  obtain ⟨hok, hsession⟩ := h₃
  subst hok
  refine wp.ite (fun hfalse => absurd hfalse (by decide)) fun _ => ?_
  have hconn₃ : l₃.conn = l₂.conn := congrArg Session.conn hsession
  have hstate : l₃.conn.state = l.conn.state := by
    rw [hconn₃, hconn₂, hconn₁]
  have hlog : l₃.log = l.log := (congrArg Session.log hsession).trans (hlog₂.trans hlog₁)
  refine wp.imp (handOver_seal hp rfl hfour (by omega) (hstate ▸ hversion)) fun out l₄ htook => ?_
  refine ⟨htook.out, ?_, htook.state.trans hstate, hlog ▸ htook.dispatched⟩
  rw [htook.inDir, hconn₃, hdir₂]
  rfl

/-! ## The round trip -/

/-- `TryProcessOne`, a number of times, and what it returned each time. -/
def tryTimes (E : Env) (handle : Bytes → LinkM Int) : ℕ → RecvM (List Int)
  | 0 => return []
  | n + 1 => do
      let ret ← tryProcessOneWith E handle
      let rets ← tryTimes E handle n
      return ret :: rets

/-- A receiver at a packet boundary of a connection that is past its version exchange
and open. -/
structure AtBoundary (r : Receiver) : Prop where
  haveLen : r.rx.haveLen = false
  opened : r.link.conn.state ≠ .closed
  version : r.link.conn.state ≠ .version

/-- A receiver that started with this log has taken the first `k` frames. -/
structure TookFrames (ps frames : List Bytes) (rest : Bytes) (log : List Event) (k : ℕ)
    (r' : Receiver) : Prop where
  buf : r'.rx.buf = (frames.drop k).flatten ++ rest
  dispatched : dispatched r'.link.log = EfiSshServer.dispatched log ++ ps.take k
  boundary : AtBoundary r'

theorem tryProcessOneWith_seal (hR : Deciphers S R) {d : Dir} (h : Agrees d r.link.conn.inDir)
    {p pad rest : Bytes} (hpad : pad.length = padLenOf (blockOf d) p.length)
    (hmax : p.length + 64 ≤ sshMaxPacket) (hp : Handles handle p) (hr : AtBoundary r)
    (hbuf : r.rx.buf = sealPacket S d (plainPacket p pad) ++ rest) :
    ∃ r', tryProcessOneWith R handle r = .ok (1, r') ∧ r'.rx.buf = rest ∧ AtBoundary r' ∧
      r'.link.conn.inDir = r.link.conn.inDir.advance (plainPacket p pad).length ∧
      dispatched r'.link.log = dispatched r.link.log ++ [p] := by
  have hdecode := decodePacket_seal rest hR h hpad hmax hp hr.version
  obtain ⟨out, l', hrun, htook⟩ := hdecode.returns
  obtain ⟨ret, hret, rfl⟩ := htook.out
  have hsim := tryPacket_simulates (E := R) handle hr.haveLen
  rw [hbuf] at hsim
  obtain ⟨pktLen, htry⟩ := hsim.ok hrun
  have hopen : l'.conn.state ≠ .closed := htook.state ▸ hr.opened
  have hone : returned ret l' = 1 := if_neg (not_or.mpr ⟨Int.not_lt.mpr hret, hopen⟩)
  have hversion : l'.conn.state ≠ .version := htook.state ▸ hr.version
  refine ⟨⟨l', ⟨rest, false, pktLen⟩⟩, ?_, rfl, ⟨rfl, hopen, hversion⟩, htook.inDir,
    htook.dispatched⟩
  rw [tryProcessOneWith_eq hr.opened hr.version, htry, hone]

theorem tryTimes_framed (hR : Deciphers S R) {d d' : Dir} {ps frames : List Bytes}
    (h : Framed S d ps frames d') (hmax : ∀ p ∈ ps, p.length + 64 ≤ sshMaxPacket)
    (hp : ∀ p ∈ ps, Handles handle p) {rest : Bytes} {k : ℕ} (hk : k ≤ ps.length)
    (hagree : Agrees d r.link.conn.inDir) (hr : AtBoundary r)
    (hbuf : r.rx.buf = frames.flatten ++ rest) :
    ∃ r', tryTimes R handle k r = .ok (List.replicate k 1, r') ∧
      TookFrames ps frames rest r.link.log k r' ∧
      (k = ps.length → Agrees d' r'.link.conn.inDir) := by
  induction h generalizing r k with
  | nil =>
      obtain rfl : k = 0 := Nat.le_zero.mp hk
      exact ⟨r, rfl, ⟨hbuf, by simp, hr⟩, fun _ => hagree⟩
  | @cons d d' p pad ps frames hpad h ih =>
      cases k with
      | zero => exact ⟨r, rfl, ⟨hbuf, by simp, hr⟩, nofun⟩
      | succ k =>
          rw [List.flatten_cons, List.append_assoc] at hbuf
          obtain ⟨r₁, htry, hbuf₁, hr₁, hdir₁, hlog₁⟩ := tryProcessOneWith_seal hR hagree hpad
            (hmax p List.mem_cons_self) (hp p List.mem_cons_self) hr hbuf
          obtain ⟨r', hrun, htook, hend⟩ := ih (fun p h => hmax p (List.mem_cons_of_mem _ h))
            (fun p h => hp p (List.mem_cons_of_mem _ h)) (Nat.le_of_succ_le_succ hk)
            (hdir₁ ▸ hagree.advance _) hr₁ hbuf₁
          refine ⟨r', ?_, ⟨htook.buf, ?_, htook.boundary⟩, fun hall => hend (Nat.succ.inj hall)⟩
          · rw [tryTimes, bind_ok htry, bind_ok hrun]
            rfl
          · rw [htook.dispatched, hlog₁, List.append_assoc]
            rfl

/-- The frames `SendPacket` writes for a list of payloads are well formed, and a
receiver whose incoming direction agrees takes them one by one: each call of
`TryProcessOne` uses up one frame and dispatches its payload, whatever follows, and
behind the last one the directions agree again. -/
theorem framing_round_trip (hR : Deciphers S R) (hwr : ∀ calls frame, S.wr calls frame = true)
    {ps : List Bytes} (hmax : ∀ p ∈ ps, p.length + 64 ≤ sshMaxPacket)
    (hp : ∀ p ∈ ps, Handles handle p) (hopen : l.conn.state ≠ .closed) (hr : AtBoundary r)
    (hempty : r.rx.buf = []) (hagree : Agrees l.conn.outDir r.link.conn.inDir) :
    ∃ sent frames l', sendAll S ps l = .ok (sent, l') ∧ sent.Sublist ps ∧
      (CryptoWorks S → sent = ps) ∧ written l'.calls = written l.calls ++ frames ∧
      List.Forall₂ (WellFramed S (blockOf l.conn.outDir)) sent frames ∧
      ∀ (rest : Bytes) (k : ℕ), k ≤ sent.length →
        ∃ r', tryTimes R handle k (r.feed (frames.flatten ++ rest)) = .ok (List.replicate k 1, r') ∧
          TookFrames sent frames rest r.link.log k r' ∧
          (k = sent.length → Agrees l'.conn.outDir r'.link.conn.inDir) := by
  obtain ⟨sent, l', hrun, hsub, hall, frames, hwritten, hframed⟩ :=
    (sendAll_framed hwr hopen hmax).returns
  have hmem : ∀ p ∈ sent, p ∈ ps := fun p h => hsub.subset h
  have hsent : ∀ p ∈ sent, p.length + 64 ≤ sshMaxPacket := fun p h => hmax p (hmem p h)
  refine ⟨sent, frames, l', hrun, hsub, hall, hwritten, hframed.wellFramed hsent,
    fun rest k hk => ?_⟩
  exact tryTimes_framed (r := r.feed (frames.flatten ++ rest)) hR hframed hsent
    (fun p h => hp p (hmem p h)) hk hagree ⟨hr.haveLen, hr.opened, hr.version⟩ (by
      rw [Receiver.feed_buf, hempty, List.nil_append])

/-- `IGNORE` is a payload whose dispatch is opaque. -/
theorem handles_ignore (E : Env) (data : Bytes) : Handles (handlePacket E) (msgIgnore :: data) := by
  refine fun l hversion => ⟨0, l, ?_, Int.le_refl 0, rfl, rfl, rfl⟩
  have hrange : ¬ (l.conn.kx.ignoreNextKexPacket = true ∧ 30 ≤ msgIgnore ∧ msgIgnore ≤ 49) :=
    fun h => absurd h.2.1 (by decide)
  simp only [handlePacket, handleMessage, LinkM.conn, bind, StateT.bind, Except.bind, if_neg hrange,
    if_neg hversion]
  rfl

/-- A platform whose keystream and MAC depend on what they are computed from. -/
def keyedEnv : Env :=
  { plainEnv fun _ _ => true with
    keystream := fun key _ pos => UInt8.ofNat (key.length + pos)
    hmac := fun _ key data => .replicate _ (UInt8.ofNat (key.length + data.length)) }

/-- A direction in use, at the last sequence number before they start again. -/
def keyedDir : Dir where
  aes := ⟨ascii "0123456789abcdef", ascii "fedcba9876543210", 5⟩
  macKey := (zeros 32).toList
  macType := .sha256
  active := true
  seq := 0xFFFFFFFF

/-- Two `IGNORE` packets that come through the direction `d`. -/
def IgnoresPass (d : Dir) : Prop :=
  ∃ (sent frames : List Bytes) (l' : Link) (r' : Receiver),
    sendAll keyedEnv [[msgIgnore], [msgIgnore, 1]]
        ⟨⟨{ newConn [] [] with outDir := d }, []⟩, []⟩ = .ok (sent, l') ∧
      tryTimes keyedEnv (handlePacket keyedEnv) 2
        ⟨⟨⟨{ newConn [] [] with state := .kex, inDir := d }, []⟩, []⟩,
          ⟨frames.flatten, false, 0⟩⟩ = .ok ([1, 1], r') ∧
      dispatched r'.link.log = [[msgIgnore], [msgIgnore, 1]] ∧
      Agrees l'.conn.outDir r'.link.conn.inDir

/-- Between two ends without keys, and between two that have them. -/
theorem framing_round_trip_ignore :
    IgnoresPass (newConn [] []).outDir ∧ IgnoresPass keyedDir := by
  have hmax : ∀ p ∈ [[msgIgnore], [msgIgnore, 1]], p.length + 64 ≤ sshMaxPacket := by decide
  have hhandles : ∀ p ∈ [[msgIgnore], [msgIgnore, 1]], Handles (handlePacket keyedEnv) p := by
    simp only [List.forall_mem_cons]
    exact ⟨handles_ignore _ _, handles_ignore _ _, by simp⟩
  have hpass : ∀ d : Dir, IgnoresPass d := by
    intro d
    obtain ⟨sent, frames, l', hsent, -, hall, -, -, htake⟩ := framing_round_trip
      (S := keyedEnv) (R := keyedEnv) (l := ⟨⟨{ newConn [] [] with outDir := d }, []⟩, []⟩)
      (r := ⟨⟨⟨{ newConn [] [] with state := .kex, inDir := d }, []⟩, []⟩, ⟨[], false, 0⟩⟩)
      ⟨rfl, rfl, fun _ => rfl, fun _ => rfl⟩ (fun _ _ => rfl) hmax hhandles
      (by simp; decide) ⟨rfl, by simp, by simp⟩ rfl
      ⟨rfl, rfl, fun _ => ⟨rfl, rfl, rfl⟩⟩
    obtain rfl := hall ⟨fun _ _ => nofun, fun _ => rfl, fun _ => rfl⟩
    obtain ⟨r', htimes, htook, hagrees⟩ := htake [] 2 (Nat.le_refl 2)
    rw [List.append_nil] at htimes
    exact ⟨_, frames, l', r', hsent, htimes, htook.dispatched, hagrees rfl⟩
  exact ⟨hpass _, hpass _⟩

end EfiSshServer
