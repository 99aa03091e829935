import EfiSshServer.Lib.History
import EfiSshServer.Machine

/-!
# The connection of `net.c`

`NetRead` keeps one `Receive` posted at a time, on a buffer that belongs to the driver
while the request is outstanding, and hands out what has arrived piece by piece.
`NetWrite` can find out in between that the connection is gone.

The driver is a `TcpDriver`: functions of the log, so that each call can have any outcome.
While a `Receive` is posted every `Poll` may change the whole buffer; what counts as
received is what lies in it when the event is found signaled.

* `FifoInv` says that an outstanding request leaves nothing unread, and that what was
  returned, followed by what is unread, is what was received.
* Each primitive keeps it (`netPoll_fifo`, `postReceive_fifo`, `checkReceive_fifo`), and so
  do both callbacks (`netRead_fifo_step`, `netWrite_fifo_step`) and every run of calls.
* `netRead_receives` says that what counts as received is what the driver has answered
  (`TcpDriver.delivers`).
-/

namespace EfiSshServer

open StateProgram History

/-! ## State -/

def netRxSize : ℕ := 16384

def efiTimeout : EfiStatus := efiErr 18

/-- The contents of `RxBuf`. -/
abbrev RxBuf := {b : Bytes // b.length = netRxSize}

structure NetConn where
  /-- `Tcp` is not `NULL`. -/
  tcp : Bool
  rxBuf : RxBuf
  rxPosted : Bool
  /-- `RxData.DataLength`. -/
  dataLength : UInt32
  rxAvail : ℕ
  rxOff : ℕ
  closed : Bool

inductive NetEvent where
  /-- `Receive` was accepted, or not. -/
  | posted
  | postFailed
  | polled
  /-- The event of the `Receive` was checked: not signaled, signaled with this data, or
  signaled with an error. -/
  | pending
  | completed (data : Bytes)
  | failed
  /-- `NetRead` returned these bytes, or -1. -/
  | returned (bytes : Bytes)
  | returnedEnd
  /-- What `NetWrite` asked. -/
  | eventMade
  | transmitted (chunk : Bytes)
  | waited
  deriving DecidableEq

structure Net where
  conn : NetConn
  log : List NetEvent

structure TcpDriver where
  receive : List NetEvent → EfiStatus
  /-- What a `Poll` leaves in a posted buffer. -/
  poll : List NetEvent → RxBuf
  /-- `Status` and `DataLength` of the `Receive`, once its event is signaled. -/
  check : List NetEvent → Option (EfiStatus × UInt32)
  makeEvent : List NetEvent → EfiStatus
  transmit : List NetEvent → EfiStatus
  /-- What `WaitToken` returns for a `Transmit`. -/
  wait : List NetEvent → EfiStatus

/-- A call of `net.c` always returns. -/
abbrev NetM := Program Empty Net

namespace NetM

def record (e : NetEvent) : NetM Unit := modify fun s => { s with log := e :: s.log }

def setConn (f : NetConn → NetConn) : NetM Unit := modify fun s => { s with conn := f s.conn }

end NetM

open NetM

/-- The connection as `NetAccept` leaves it. -/
def acceptedConn : NetConn where
  tcp := true
  rxBuf := ⟨List.replicate netRxSize 0, List.length_replicate⟩
  rxPosted := false
  dataLength := 0
  rxAvail := 0
  rxOff := 0
  closed := false

/-! ## The callbacks -/

section Callbacks

variable (D : TcpDriver)

/-- `Poll`: the driver works on the buffer as long as it has it. -/
def netPoll : NetM Unit := do
  let s ← get
  if s.conn.rxPosted then setConn fun c => { c with rxBuf := D.poll s.log }
  record .polled

def postReceive : NetM Unit := do
  setConn fun c => { c with dataLength := UInt32.ofNat netRxSize }
  if efiError (D.receive (← get).log) then
    setConn fun c => { c with closed := true }
    record .postFailed
  else
    setConn fun c => { c with rxPosted := true }
    record .posted

/-- The completion of a posted `Receive`, when its event is signaled. -/
def checkReceive : NetM Unit := do
  let s ← get
  match D.check s.log with
  | none => record .pending
  | some (st, dataLength) =>
      setConn fun c => { c with dataLength, rxPosted := false }
      if efiError st then
        setConn fun c => { c with closed := true }
        record .failed
      else
        setConn fun c => { c with rxAvail := min dataLength.toNat netRxSize, rxOff := 0 }
        record (.completed (s.conn.rxBuf.val.take dataLength.toNat))

/-- The part of `NetRead` for an empty buffer. -/
def refill : NetM Unit := do
  let conn := (← get).conn
  if !conn.rxPosted && !conn.closed then postReceive D
  netPoll D
  if (← get).conn.rxPosted then checkReceive D

/-- The part of `NetRead` that hands out what is in the buffer. -/
def handOut (max : ℕ) : NetM (Int × Bytes) := do
  let conn := (← get).conn
  if conn.rxAvail = 0 then
    if conn.closed then
      record .returnedEnd
      return (-1, [])
    return (0, [])
  let n := if conn.rxAvail < max then conn.rxAvail else max
  let bytes := (conn.rxBuf.val.drop conn.rxOff).take n
  setConn fun c => { c with rxOff := c.rxOff + n, rxAvail := c.rxAvail - n }
  record (.returned bytes)
  return (n, bytes)

/-- What `NetRead` returns, and the bytes it copies. -/
def netRead (max : ℕ) : NetM (Int × Bytes) := do
  if !(← get).conn.tcp then return (-1, [])
  if (← get).conn.rxAvail = 0 then refill D
  handOut max

/-- The spinning of `WaitToken`; the polls of one call are one. -/
def waitToken : NetM EfiStatus := do
  netPoll D
  let st := D.wait (← get).log
  record .waited
  return st

/-- The wait for a `Transmit`, and the one behind a `Cancel` when that takes too long. -/
def finishTransmit : NetM EfiStatus := do
  let st ← waitToken D
  if st = efiTimeout then
    let _ ← waitToken D
  return st

/-- One round of the loop in `NetWrite`: -1 or 0. -/
def transmitChunk (chunk : Bytes) : NetM Int := do
  let made := D.makeEvent (← get).log
  record .eventMade
  if efiError made then return -1
  let posted := D.transmit (← get).log
  record (.transmitted chunk)
  let st ← if efiError posted then pure posted else finishTransmit D
  if efiError st then
    setConn fun c => { c with closed := true }
    return -1
  return 0

def transmitFrom : ℕ → Bytes → NetM Int
  | 0, _ => return 0
  | _ + 1, [] => return 0
  | rounds + 1, buf => do
      if (← transmitChunk D (buf.take 8192)) < 0 then return -1
      transmitFrom rounds (buf.drop 8192)

/-- Each round takes a byte at least, so the length of the buffer is enough rounds. -/
def netWrite (buf : Bytes) : NetM Int := do
  let conn := (← get).conn
  if !conn.tcp || conn.closed then return -1
  transmitFrom D buf.length buf

end Callbacks

/-! ## What the log says -/

/-- A `Receive` was accepted and has not been answered. -/
def outstanding : List NetEvent → Bool
  | [] => false
  | .posted :: _ => true
  | .completed _ :: _ => false
  | .failed :: _ => false
  | _ :: h => outstanding h

def NetEvent.returnedBytes : NetEvent → Option Bytes
  | .returned bytes => some bytes
  | _ => none

def NetEvent.completedBytes : NetEvent → Option Bytes
  | .completed data => some data
  | _ => none

/-- The bytes that `NetRead` returned. -/
def bytesReturned (h : List NetEvent) : Bytes := (chronicle NetEvent.returnedBytes h).flatten

/-- The data of all successful completions. -/
def bytesReceived (h : List NetEvent) : Bytes := (chronicle NetEvent.completedBytes h).flatten

/-- What the driver has received when it is polled after `log`: the data of the `Receive`, if
its event is found signaled without an error. -/
def TcpDriver.completes (D : TcpDriver) (log : List NetEvent) : Bytes :=
  match D.check (.polled :: log) with
  | some (st, dataLength) => if efiError st then [] else (D.poll log).val.take dataLength.toNat
  | none => []

/-- What the driver delivers while `NetRead` runs: of the `Receive` that is outstanding, or of
the one that is posted now. -/
def TcpDriver.delivers (D : TcpDriver) (s : Net) : Bytes :=
  if s.conn.rxAvail ≠ 0 then []
  else if outstanding s.log = true then D.completes s.log
  else if s.conn.closed = true ∨ efiError (D.receive s.log) = true then []
  else D.completes (.posted :: s.log)

/-- `RxBuf[RxOff .. RxOff + RxAvail)`. -/
def NetConn.unread (c : NetConn) : Bytes := (c.rxBuf.val.drop c.rxOff).take c.rxAvail

/-- A `Receive` is asked for when none is outstanding and all data was returned. -/
def PostsIdle (e : NetEvent) (h : List NetEvent) : Prop :=
  e = .posted ∨ e = .postFailed → outstanding h = false ∧ bytesReturned h = bytesReceived h

structure FifoInv (s : Net) : Prop where
  tcp : s.conn.tcp = true
  bound : s.conn.rxOff + s.conn.rxAvail ≤ netRxSize
  idle : s.conn.rxPosted = true → s.conn.rxAvail = 0
  posted : outstanding s.log = s.conn.rxPosted
  fifo : bytesReturned s.log ++ s.conn.unread = bytesReceived s.log
  along : Along PostsIdle s.log

/-- An event that is neither a request, an answer nor a byte returned. -/
def NetEvent.Quiet : NetEvent → Prop
  | .posted | .postFailed | .completed _ | .failed | .returned _ => False
  | _ => True

section Log

variable {e : NetEvent} {h : List NetEvent}

theorem bytesReturned_cons (bytes : Bytes) (h : List NetEvent) :
    bytesReturned (.returned bytes :: h) = bytesReturned h ++ bytes := by
  rw [bytesReturned, chronicle_cons_of_some (f := NetEvent.returnedBytes) (b := bytes) rfl,
    List.flatten_append, ← bytesReturned]
  simp

theorem bytesReceived_cons (data : Bytes) (h : List NetEvent) :
    bytesReceived (.completed data :: h) = bytesReceived h ++ data := by
  rw [bytesReceived, chronicle_cons_of_some (f := NetEvent.completedBytes) (b := data) rfl,
    List.flatten_append, ← bytesReceived]
  simp

theorem bytesReturned_cons_of_none (he : e.returnedBytes = none) :
    bytesReturned (e :: h) = bytesReturned h := by
  rw [bytesReturned, chronicle_cons_of_none he, ← bytesReturned]

theorem bytesReceived_cons_of_none (he : e.completedBytes = none) :
    bytesReceived (e :: h) = bytesReceived h := by
  rw [bytesReceived, chronicle_cons_of_none he, ← bytesReceived]

end Log

/-! ## Every primitive keeps the invariant -/

section Primitives

variable {D : TcpDriver} {s : Net}

theorem wp_netRecord {post : PUnit → Net → Prop} {fault : Empty → Prop} (e : NetEvent) :
    wp (NetM.record e) post fault = fun s => post ⟨⟩ { s with log := e :: s.log } := rfl

theorem wp_setConn {post : PUnit → Net → Prop} {fault : Empty → Prop}
    (f : NetConn → NetConn) :
    wp (setConn f) post fault = fun s => post ⟨⟩ { s with conn := f s.conn } := rfl

/-- The invariant holds on, and nothing was returned. -/
structure FifoKept (s t : Net) : Prop where
  inv : FifoInv t
  returned : bytesReturned t.log = bytesReturned s.log

theorem FifoKept.trans {t u : Net} (h : FifoKept s t) (h' : FifoKept t u) : FifoKept s u :=
  ⟨h'.inv, h'.returned.trans h.returned⟩

theorem FifoInv.kept (h : FifoInv s) : FifoKept s s := ⟨h, rfl⟩

theorem FifoInv.quiet (h : FifoInv s) (e : NetEvent) (he : e.Quiet) :
    FifoKept s { s with log := e :: s.log } := by
  have hlog : outstanding (e :: s.log) = outstanding s.log ∧ e.returnedBytes = none ∧
      e.completedBytes = none ∧ e ≠ .posted ∧ e ≠ .postFailed := by
    cases e <;> first | exact he.elim | exact ⟨rfl, rfl, rfl, by simp, by simp⟩
  obtain ⟨hout, hret, hrec, hpost, hfailed⟩ := hlog
  refine ⟨?_, bytesReturned_cons_of_none hret⟩
  exact {
    tcp := h.tcp
    bound := h.bound
    idle := h.idle
    posted := hout.trans h.posted
    fifo := by
      rw [bytesReturned_cons_of_none hret, bytesReceived_cons_of_none hrec]
      exact h.fifo
    along := ⟨fun hask => absurd hask (not_or.mpr ⟨hpost, hfailed⟩), h.along⟩ }

theorem FifoInv.close (h : FifoInv s) :
    FifoKept s { s with conn := { s.conn with closed := true } } :=
  ⟨⟨h.tcp, h.bound, h.idle, h.posted, h.fifo, h.along⟩, rfl⟩

/-- With nothing unread, everything received was returned. -/
theorem FifoInv.returned_eq (h : FifoInv s) (hempty : s.conn.rxAvail = 0) :
    bytesReturned s.log = bytesReceived s.log := by
  rw [← h.fifo, NetConn.unread, hempty, List.take_zero, List.append_nil]

/-- A buffer that the driver has holds nothing unread. -/
theorem netPoll_fifo (h : FifoInv s) :
    wp (netPoll D) (fun _ t => FifoKept s t) (fun _ => False) s := by
  unfold netPoll
  simp only [wp_bind, wp_get]
  refine wp.ite (fun hposted => ?_) fun _ => ?_
  · have hnone : s.conn.rxAvail = 0 := h.idle hposted
    have hlent : FifoInv { s with conn := { s.conn with rxBuf := D.poll s.log } } := by
      refine ⟨h.tcp, h.bound, h.idle, h.posted, ?_, h.along⟩
      rw [h.returned_eq hnone, NetConn.unread, hnone, List.take_zero, List.append_nil]
    have hpolled := hlent.quiet .polled trivial
    exact ⟨hpolled.inv, hpolled.returned⟩
  · exact h.quiet .polled trivial

theorem postReceive_fifo (h : FifoInv s) (hidle : s.conn.rxPosted = false)
    (hempty : s.conn.rxAvail = 0) :
    wp (postReceive D) (fun _ t => FifoKept s t) (fun _ => False) s := by
  have hnone : outstanding s.log = false := h.posted.trans hidle
  have hall := h.returned_eq hempty
  have hunread : ∀ e : NetEvent, e.returnedBytes = none → e.completedBytes = none →
      bytesReturned (e :: s.log) ++ s.conn.unread = bytesReceived (e :: s.log) := by
    intro e hret hrec
    rw [bytesReturned_cons_of_none hret, bytesReceived_cons_of_none hrec]
    exact h.fifo
  unfold postReceive
  simp only [wp_bind, wp_get, wp_setConn]
  refine wp.ite (fun _ => ⟨?_, bytesReturned_cons_of_none rfl⟩)
    fun _ => ⟨?_, bytesReturned_cons_of_none rfl⟩
  · exact {
      tcp := h.tcp
      bound := h.bound
      idle := h.idle
      posted := h.posted
      fifo := hunread .postFailed rfl rfl
      along := ⟨fun _ => ⟨hnone, hall⟩, h.along⟩ }
  · exact {
      tcp := h.tcp
      bound := h.bound
      idle := fun _ => hempty
      posted := rfl
      fifo := hunread .posted rfl rfl
      along := ⟨fun _ => ⟨hnone, hall⟩, h.along⟩ }

/-- What lies in the buffer becomes unread. -/
theorem checkReceive_fifo (h : FifoInv s) (hposted : s.conn.rxPosted = true) :
    wp (checkReceive D) (fun _ t => FifoKept s t) (fun _ => False) s := by
  have hempty := h.idle hposted
  have hall := h.returned_eq hempty
  unfold checkReceive
  simp only [wp_bind, wp_get]
  split
  · exact h.quiet .pending trivial
  · next st dataLength _ =>
    simp only [wp_bind, wp_setConn]
    refine wp.ite (fun _ => ⟨?_, bytesReturned_cons_of_none rfl⟩)
      fun _ => ⟨?_, bytesReturned_cons_of_none rfl⟩
    · exact {
        tcp := h.tcp
        bound := h.bound
        idle := fun _ => hempty
        posted := rfl
        fifo := h.fifo
        along := ⟨fun hask => by simp at hask, h.along⟩ }
    · have htake : s.conn.rxBuf.val.take (min dataLength.toNat netRxSize) =
          s.conn.rxBuf.val.take dataLength.toNat := by
        rw [← List.take_take, List.take_of_length_le s.conn.rxBuf.property.le]
      exact {
        tcp := h.tcp
        bound := by
          rw [Nat.zero_add]
          exact Nat.min_le_right _ _
        idle := fun hout => by cases hout
        posted := rfl
        fifo := by
          rw [bytesReturned_cons_of_none rfl, bytesReceived_cons, hall]
          exact congrArg (bytesReceived s.log ++ ·) htake
        along := ⟨fun hask => by simp at hask, h.along⟩ }

/-! ## The callbacks keep it -/

theorem refill_fifo (h : FifoInv s) (hempty : s.conn.rxAvail = 0) :
    wp (refill D) (fun _ t => FifoKept s t) (fun _ => False) s := by
  -- what follows the request, from any state behind it
  have hrest : ∀ {t : Net}, FifoKept s t → wp (do
      netPoll D
      if (← get).conn.rxPosted then checkReceive D) (fun _ u => FifoKept s u)
      (fun _ => False) t := by
    intro t ht
    simp only [wp_bind, wp_get]
    refine wp.imp (netPoll_fifo ht.inv) fun _ u hu => ?_
    refine wp.ite (fun hposted => ?_) fun _ => ht.trans hu
    exact wp.imp (checkReceive_fifo hu.inv hposted) fun _ v hv => (ht.trans hu).trans hv
  unfold refill
  simp only [wp_bind, wp_get] at hrest ⊢
  refine wp.ite (fun hask => ?_) fun _ => ?_
  · rw [Bool.and_eq_true, Bool.not_eq_true', Bool.not_eq_true'] at hask
    simp only [wp_bind, wp_get]
    exact wp.imp (postReceive_fifo h hask.1 hempty) fun _ t ht => hrest ht
  · simp only [wp_bind, wp_get]
    exact hrest h.kept

/-- What follows the request receives what the driver has completed by then. -/
theorem pollCheck_receives {t : Net} :
    wp (do
      netPoll D
      if (← get).conn.rxPosted then checkReceive D) (fun _ u => bytesReceived u.log =
        bytesReceived t.log ++ if t.conn.rxPosted = true then D.completes t.log else [])
      (fun _ => False) t := by
  have hpolled : bytesReceived (.polled :: t.log) = bytesReceived t.log :=
    bytesReceived_cons_of_none rfl
  unfold netPoll
  simp only [wp_bind, wp_get]
  refine wp.ite (fun hposted => ?_) fun hidle => ?_
  · simp only [wp_bind, wp_setConn, wp_netRecord]
    refine wp.ite (fun _ => ?_) fun hidle => absurd hposted hidle
    rw [if_pos hposted]
    unfold checkReceive TcpDriver.completes
    rw [wp_bind, wp_get]
    dsimp only
    cases D.check (.polled :: t.log) with
    | none =>
        change bytesReceived (.pending :: .polled :: t.log) = _
        rw [bytesReceived_cons_of_none rfl, hpolled, List.append_nil]
    | some answer =>
        obtain ⟨st, dataLength⟩ := answer
        simp only [wp_bind, wp_setConn]
        refine wp.ite (fun herror => ?_) fun hgood => ?_
        · change bytesReceived (.failed :: .polled :: t.log) = _
          rw [bytesReceived_cons_of_none rfl, hpolled, if_pos herror, List.append_nil]
        · change bytesReceived (.completed _ :: .polled :: t.log) = _
          rw [bytesReceived_cons, hpolled, if_neg hgood]
  · rw [wp_netRecord]
    refine wp.ite (fun hposted => absurd hposted hidle) fun _ => ?_
    change bytesReceived (.polled :: t.log) = _
    rw [hpolled, if_neg hidle, List.append_nil]

theorem refill_receives (h : FifoInv s) (hempty : s.conn.rxAvail = 0) :
    wp (refill D) (fun _ t => bytesReceived t.log = bytesReceived s.log ++ D.delivers s)
      (fun _ => False) s := by
  have hposted := h.posted
  -- what follows the request, from any state that has received no more
  have hrest : ∀ {t : Net} (bytes : Bytes), bytesReceived t.log = bytesReceived s.log →
      (if t.conn.rxPosted = true then D.completes t.log else []) = bytes →
      wp (do
        netPoll D
        if (← get).conn.rxPosted then checkReceive D) (fun _ u =>
        bytesReceived u.log = bytesReceived s.log ++ bytes) (fun _ => False) t := by
    intro t bytes hlog hbytes
    have hchecked := pollCheck_receives (D := D) (t := t)
    rwa [hlog, hbytes] at hchecked
  unfold refill TcpDriver.delivers
  rw [if_neg (not_not.mpr hempty)]
  simp only [wp_bind, wp_get] at hrest ⊢
  refine wp.ite (fun hask => ?_) fun hwaits => ?_
  · rw [Bool.and_eq_true, Bool.not_eq_true', Bool.not_eq_true'] at hask
    obtain ⟨hidle, hopen⟩ := hask
    have hnone : ¬ outstanding s.log = true := by
      rw [hposted, hidle]
      decide
    have hgoing : ¬ s.conn.closed = true := by
      rw [hopen]
      decide
    rw [if_neg hnone]
    unfold postReceive
    simp only [wp_bind, wp_get, wp_setConn]
    refine wp.ite (fun hrejected => ?_) fun hposts => ?_
    · rw [if_pos (.inr hrejected)]
      simp only [wp_bind, wp_setConn, wp_netRecord]
      exact hrest [] (bytesReceived_cons_of_none rfl) (if_neg (by rw [hidle]; decide))
    · rw [if_neg (not_or.mpr ⟨hgoing, hposts⟩)]
      simp only [wp_bind, wp_setConn, wp_netRecord]
      exact hrest _ (bytesReceived_cons_of_none rfl) rfl
  · simp only [wp_bind, wp_get]
    refine hrest _ rfl ?_
    rw [hposted]
    by_cases hout : s.conn.rxPosted = true
    · rw [if_pos hout, if_pos hout]
    · have hclosed : s.conn.closed = true := by
        by_contra hopen
        exact hwaits (by simp [hout, hopen])
      rw [if_neg hout, if_neg hout, if_pos (.inl hclosed)]

/-- A call of `NetRead` receives what the driver delivers. -/
theorem netRead_receives (h : FifoInv s) (max : ℕ) :
    wp (netRead D max) (fun _ t => bytesReceived t.log = bytesReceived s.log ++ D.delivers s)
      (fun _ => False) s := by
  -- handing out receives nothing
  have hout : ∀ t : Net, wp (handOut max) (fun _ u => bytesReceived u.log = bytesReceived t.log)
      (fun _ => False) t := by
    intro t
    unfold handOut
    simp only [wp_bind, wp_get]
    refine wp.ite (fun _ => wp.ite (fun _ => ?_) fun _ => rfl) fun _ => ?_
    · exact bytesReceived_cons_of_none rfl
    · exact bytesReceived_cons_of_none rfl
  unfold netRead
  simp only [wp_bind, wp_get]
  refine wp.ite (fun hnot => ?_) fun _ => ?_
  · rw [h.tcp] at hnot
    cases hnot
  · simp only [wp_bind, wp_get]
    refine wp.ite (fun hempty => ?_) fun hunread => ?_
    · simp only [wp_bind]
      refine wp.imp (refill_receives h hempty) fun _ t ht => ?_
      exact wp.imp (hout t) fun _ u hu => hu.trans ht
    · have hnone : D.delivers s = [] := if_pos hunread
      rw [hnone, List.append_nil]
      exact hout s

/-- A write receives nothing. -/
theorem netWrite_receives (base buf : Bytes) :
    Keeps (fun t : Net => bytesReceived t.log = base) (netWrite D buf) := by
  -- `NetWrite` is made of parts that complete no receive
  have hrecord : ∀ e : NetEvent, e.completedBytes = none →
      Keeps (fun t : Net => bytesReceived t.log = base) (NetM.record e) :=
    fun e he t ht => (bytesReceived_cons_of_none he).trans ht
  have hset : ∀ f : NetConn → NetConn,
      Keeps (fun t : Net => bytesReceived t.log = base) (setConn f) := fun _ _ ht => ht
  have hget : Keeps (fun t : Net => bytesReceived t.log = base) (get : NetM Net) :=
    fun _ ht => ht
  have hpoll : Keeps (fun t : Net => bytesReceived t.log = base) (netPoll D) :=
    .bind hget fun _ => .ite (fun _ => .bind (hset _) fun _ => hrecord _ rfl) fun _ => hrecord _ rfl
  have hwait : Keeps (fun t : Net => bytesReceived t.log = base) (waitToken D) :=
    .bind hpoll fun _ => .bind hget fun _ => .bind (hrecord _ rfl) fun _ => .pure _
  have hfinish : Keeps (fun t : Net => bytesReceived t.log = base) (finishTransmit D) :=
    .bind hwait fun _ => .ite (fun _ => .bind hwait fun _ => .pure _) fun _ => .pure _
  have hlast : ∀ st : EfiStatus, Keeps (fun t : Net => bytesReceived t.log = base) (do
      if efiError st then do
        setConn fun c => { c with closed := true }
        return -1
      return 0 : NetM Int) :=
    fun st => .ite (fun _ => .bind (hset _) fun _ => .pure _) fun _ => .pure _
  have hchunk : ∀ chunk,
      Keeps (fun t : Net => bytesReceived t.log = base) (transmitChunk D chunk) := by
    intro chunk
    refine .bind hget fun _ => .bind (hrecord _ rfl) fun _ => .ite (fun _ => .pure _) fun _ => ?_
    refine .bind hget fun _ => .bind (hrecord _ rfl) fun _ => .ite (fun _ => hlast _) fun _ => ?_
    exact .bind hfinish fun st => hlast st
  have hfrom : ∀ (rounds : ℕ) (buf : Bytes),
      Keeps (fun t : Net => bytesReceived t.log = base) (transmitFrom D rounds buf) := by
    intro rounds
    induction rounds with
    | zero => exact fun _ => .pure _
    | succ rounds ih =>
        intro buf
        cases buf with
        | nil => exact .pure _
        | cons x buf => exact .bind (hchunk _) fun _ => .ite (fun _ => .pure _) fun _ => ih _
  exact .bind hget fun _ => .ite (fun _ => .pure _) fun _ => hfrom _ _

/-- A call of `NetRead`: the end with everything returned, or some more bytes. -/
structure ReadOutcome (max : ℕ) (s : Net) (out : Int × Bytes) (t : Net) : Prop where
  inv : FifoInv t
  outcome :
    out = (-1, []) ∧ t.conn.closed = true ∧ bytesReturned t.log = bytesReceived t.log ∧
        bytesReturned t.log = bytesReturned s.log ∨
      out.1 = out.2.length ∧ out.2.length ≤ max ∧
        bytesReturned t.log = bytesReturned s.log ++ out.2

/-- The bytes copied move from the unread ones to the returned ones. -/
theorem take_fifo {n : ℕ} (h : FifoInv s) (hn : n ≤ s.conn.rxAvail) :
    let bytes := (s.conn.rxBuf.val.drop s.conn.rxOff).take n
    FifoInv ⟨{ s.conn with rxOff := s.conn.rxOff + n, rxAvail := s.conn.rxAvail - n },
      .returned bytes :: s.log⟩ := by
  intro bytes
  have hbound := h.bound
  have hsplit : bytes ++ (s.conn.rxBuf.val.drop (s.conn.rxOff + n)).take (s.conn.rxAvail - n) =
      s.conn.unread := by
    have hbytes : bytes = s.conn.unread.take n := by
      rw [NetConn.unread, List.take_take, Nat.min_eq_left hn]
    rw [hbytes, ← List.drop_drop, List.take_drop, Nat.add_sub_cancel' hn]
    exact List.take_append_drop n s.conn.unread
  exact {
    tcp := h.tcp
    bound := by
      change s.conn.rxOff + n + (s.conn.rxAvail - n) ≤ netRxSize
      omega
    idle := fun hposted => by
      change s.conn.rxAvail - n = 0
      rw [h.idle hposted, Nat.zero_sub]
    posted := h.posted
    fifo := by
      rw [bytesReturned_cons, bytesReceived_cons_of_none rfl, ← h.fifo, List.append_assoc]
      exact congrArg (bytesReturned s.log ++ ·) hsplit
    along := ⟨fun hask => by simp at hask, h.along⟩ }

theorem handOut_fifo (h : FifoInv s) (max : ℕ) :
    wp (handOut max) (fun out t => ReadOutcome max s out t) (fun _ => False) s := by
  unfold handOut
  simp only [wp_bind, wp_get]
  refine wp.ite (fun hempty => wp.ite (fun hclosed => ?_) fun _ => ?_) fun _ => ?_
  · have hend := h.quiet .returnedEnd trivial
    have hall : bytesReturned (.returnedEnd :: s.log) = bytesReceived (.returnedEnd :: s.log) :=
      hend.inv.returned_eq hempty
    exact ⟨hend.inv, .inl ⟨rfl, hclosed, hall, hend.returned⟩⟩
  · exact ⟨h, .inr ⟨rfl, Nat.zero_le max, (List.append_nil _).symm⟩⟩
  · have hn : (if s.conn.rxAvail < max then s.conn.rxAvail else max) ≤ s.conn.rxAvail ∧
        (if s.conn.rxAvail < max then s.conn.rxAvail else max) ≤ max := by
      split <;> omega
    generalize (if s.conn.rxAvail < max then s.conn.rxAvail else max) = n at hn
    have hlength : ((s.conn.rxBuf.val.drop s.conn.rxOff).take n).length = n := by
      have hbound := h.bound
      rw [List.length_take, List.length_drop, s.conn.rxBuf.property]
      omega
    refine ⟨take_fifo h hn.1, .inr ⟨?_, ?_, bytesReturned_cons _ _⟩⟩
    · exact congrArg Int.ofNat hlength.symm
    · exact hlength.trans_le hn.2

theorem netRead_fifo_step (h : FifoInv s) (max : ℕ) :
    wp (netRead D max) (fun out t => ReadOutcome max s out t) (fun _ => False) s := by
  -- a state behind `refill` returned nothing more
  have hout : ∀ {t : Net}, FifoKept s t →
      wp (handOut max) (fun out u => ReadOutcome max s out u) (fun _ => False) t := by
    intro t ht
    refine wp.imp (handOut_fifo ht.inv max) fun out u hu => ?_
    have houtcome := hu.outcome
    rw [ht.returned] at houtcome
    exact ⟨hu.inv, houtcome⟩
  unfold netRead
  simp only [wp_bind, wp_get]
  refine wp.ite (fun hnot => ?_) fun _ => ?_
  · rw [h.tcp] at hnot
    cases hnot
  · simp only [wp_bind, wp_get]
    refine wp.ite (fun hempty => ?_) fun _ => ?_
    · simp only [wp_bind]
      exact wp.imp (refill_fifo h hempty) fun _ t ht => hout ht
    · exact hout h.kept

theorem waitToken_fifo (h : FifoInv s) :
    wp (waitToken D) (fun _ t => FifoKept s t) (fun _ => False) s := by
  unfold waitToken
  simp only [wp_bind, wp_get]
  refine wp.imp (netPoll_fifo h) fun _ t ht => ?_
  exact ht.trans (ht.inv.quiet .waited trivial)

theorem finishTransmit_fifo (h : FifoInv s) :
    wp (finishTransmit D) (fun _ t => FifoKept s t) (fun _ => False) s := by
  unfold finishTransmit
  simp only [wp_bind]
  refine wp.imp (waitToken_fifo h) fun st t ht => ?_
  refine wp.ite (fun _ => ?_) fun _ => ht
  simp only [wp_bind, wp_pure]
  exact wp.imp (waitToken_fifo ht.inv) fun _ u hu => ht.trans hu

theorem transmitChunk_fifo (h : FifoInv s) (chunk : Bytes) :
    wp (transmitChunk D chunk) (fun _ t => FifoKept s t) (fun _ => False) s := by
  have hmade := h.quiet .eventMade trivial
  have hsent := hmade.trans (hmade.inv.quiet (.transmitted chunk) trivial)
  unfold transmitChunk
  simp only [wp_bind, wp_get, wp_netRecord]
  refine wp.ite (fun _ => hmade) fun _ => ?_
  simp only [wp_bind, wp_get, wp_netRecord]
  -- the last test, behind the wait if there was one
  have hlast : ∀ (st : EfiStatus) {t : Net}, FifoKept s t →
      wp (if efiError st then do
          setConn fun c => { c with closed := true }
          return -1
        else return 0 : NetM Int) (fun _ u => FifoKept s u) (fun _ => False) t := fun st t ht =>
    wp.ite (fun _ => ht.trans ht.inv.close) fun _ => ht
  refine wp.ite (fun _ => ?_) fun _ => ?_
  · exact hlast _ hsent
  · simp only [wp_bind]
    exact wp.imp (finishTransmit_fifo hsent.inv) fun st t ht => hlast st (hsent.trans ht)

theorem transmitFrom_fifo (h : FifoInv s) (rounds : ℕ) (buf : Bytes) :
    wp (transmitFrom D rounds buf) (fun _ t => FifoKept s t) (fun _ => False) s := by
  induction rounds generalizing s buf with
  | zero => exact h.kept
  | succ rounds ih =>
    cases buf with
    | nil => exact h.kept
    | cons x buf =>
      simp only [transmitFrom, wp_bind]
      refine wp.imp (transmitChunk_fifo h _) fun ret t ht => ?_
      refine wp.ite (fun _ => ht) fun _ => ?_
      exact wp.imp (ih ht.inv _) fun _ u hu => ht.trans hu

theorem netWrite_fifo_step (h : FifoInv s) (buf : Bytes) :
    wp (netWrite D buf) (fun _ t => FifoKept s t) (fun _ => False) s := by
  unfold netWrite
  simp only [wp_bind, wp_get]
  exact wp.ite (fun _ => h.kept) fun _ => transmitFrom_fifo h _ _

end Primitives

/-! ## Runs -/

inductive NetCall where
  | read (max : ℕ)
  | write (buf : Bytes)

/-- The state behind a call. -/
def behind {α : Type} (m : NetM α) (s : Net) : Net :=
  match m s with
  | .ok (_, t) => t

def netCall (D : TcpDriver) (s : Net) : NetCall → Net
  | .read max => behind (netRead D max) s
  | .write buf => behind (netWrite D buf) s

/-- A connection after some calls of the two callbacks. -/
def netRun (D : TcpDriver) (calls : List NetCall) : Net :=
  calls.foldl (netCall D) ⟨acceptedConn, []⟩

theorem fifoInv_accepted : FifoInv ⟨acceptedConn, []⟩ where
  tcp := rfl
  bound := Nat.zero_le _
  idle := fun hposted => by cases hposted
  posted := rfl
  fifo := rfl
  along := trivial

theorem behind_of_wp {α : Type} {m : NetM α} {s : Net} {post : α → Net → Prop}
    (h : wp m post (fun _ => False) s) : ∃ a, m s = .ok (a, behind m s) ∧ post a (behind m s) := by
  obtain ⟨a, t, hrun, hpost⟩ := h.returns
  have ht : behind m s = t := by rw [behind, hrun]
  exact ⟨a, ht ▸ hrun, ht ▸ hpost⟩

theorem netRun_fifoInv (D : TcpDriver) (calls : List NetCall) : FifoInv (netRun D calls) := by
  suffices hfold : ∀ s, FifoInv s → FifoInv (calls.foldl (netCall D) s) from
    hfold _ fifoInv_accepted
  induction calls with
  | nil => exact fun _ h => h
  | cons call calls ih =>
    intro s h
    apply ih
    cases call with
    | read max =>
      obtain ⟨_, _, hread⟩ := behind_of_wp (netRead_fifo_step (D := D) h max)
      exact hread.inv
    | write buf =>
      obtain ⟨_, _, hwrite⟩ := behind_of_wp (netWrite_fifo_step (D := D) h buf)
      exact hwrite.inv

/-- The transport read is a lossless FIFO, whatever the driver does and whenever
`NetWrite` fails.  Each call of `NetRead` receives what the driver delivers meanwhile, on a
closed connection as well. -/
theorem netRead_fifo (D : TcpDriver) (calls : List NetCall) :
    let s := netRun D calls
    bytesReturned s.log ++ s.conn.unread = bytesReceived s.log ∧
      s.conn.rxOff + s.conn.rxAvail ≤ netRxSize ∧
      (∀ after e before, s.log = after ++ e :: before → e = .posted ∨ e = .postFailed →
        outstanding before = false ∧ bytesReturned before = bytesReceived before) ∧
      (∀ max, ∃ out t, netRead D max s = .ok (out, t) ∧
        bytesReceived t.log = bytesReceived s.log ++ D.delivers s ∧
        (out = (-1, []) ∧ t.conn.closed = true ∧ bytesReturned t.log = bytesReceived t.log ∧
            bytesReturned t.log = bytesReturned s.log ∨
          out.1 = out.2.length ∧ out.2.length ≤ max ∧
            bytesReturned t.log = bytesReturned s.log ++ out.2)) ∧
      ∀ buf ret t, netWrite D buf s = .ok (ret, t) → bytesReceived t.log = bytesReceived s.log := by
  intro s
  have h : FifoInv s := netRun_fifoInv D calls
  refine ⟨h.fifo, h.bound, along_iff.mp h.along, fun max => ?_, fun buf ret t hrun => ?_⟩
  · obtain ⟨out, hrun, hread⟩ := behind_of_wp (netRead_fifo_step (D := D) h max)
    have hreceives := (netRead_receives h max).ok hrun
    exact ⟨out, _, hrun, hreceives, hread.outcome⟩
  · have hreceives := netWrite_receives (D := D) (bytesReceived s.log) buf s rfl
    exact hreceives.ok hrun

end EfiSshServer
