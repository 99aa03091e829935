import EfiSshServer.LinkInvariant
import EfiSshServer.Framing
import EfiSshServer.Scenario
import EfiSshServer.Lib.History

/-!
# Sequence numbers

SSH numbers the packets of each direction from 0, modulo 2^32, and never starts over: a key
exchange replaces the keys and not the number.  The number goes into the MAC, so that a
packet is accepted in its own place only.

* `Posts` is what a send does to the transport as well: the frame that it accepted is one
  more of `delivered`, and the direction is behind that frame.
* `Numbered` is the invariant: the numbers of both directions are counts of the log.
* `FramesOf` ties the packets that were sent to the frames that the transport was given, each
  sealed under its number.
-/

namespace EfiSshServer

open StateProgram LinkM History

variable {E : Env} {p packet mac : Bytes} {c : Conn} {l : Link} {log : List Event} {s t : Session}

/-! ## What a send does -/

/-- The bytes that the transport accepted. -/
def delivered (E : Env) : List Call → List Bytes
  | [] => []
  | .write frame :: calls => delivered E calls ++ if E.wr calls frame then [frame] else []
  | _ :: calls => delivered E calls

theorem delivered_cons {call : Call} (h : call.isWrite = false) (calls : List Call) :
    delivered E (call :: calls) = delivered E calls := by
  cases call <;> first | rfl | cases h

theorem delivered_write (calls : List Call) (frame : Bytes) :
    delivered E (.write frame :: calls) =
      delivered E calls ++ if E.wr calls frame then [frame] else [] :=
  rfl

/-- The outcomes of a send, on the link: `Emits` with the direction and the frame. -/
inductive Posts (E : Env) (p : Bytes) (l : Link) : Int → Link → Prop
  | sent {calls : List Call} {pad : Bytes} (hopen : l.conn.state ≠ .closed)
      (hfits : p.length + 64 ≤ sshMaxPacket)
      (hpad : pad.length = padLenOf (blockOf l.conn.outDir) p.length)
      (hdelivered : delivered E calls =
        delivered E l.calls ++ [sealPacket E l.conn.outDir (plainPacket p pad)]) :
      Posts E p l 0 ⟨⟨{ l.conn with
        outDir := l.conn.outDir.advance (plainPacket p pad).length },
        .sent p l.conn :: l.log⟩, calls⟩
  | refused {calls : List Call} (hdelivered : delivered E calls = delivered E l.calls) :
      Posts E p l (-1) ⟨⟨l.conn, .sendFailed p l.conn :: l.log⟩, calls⟩
  | lost {calls : List Call} {c : Conn} (hclosed : c.state = .closed)
      (hin : c.inDir = l.conn.inDir) (hversion : c.versionSent = l.conn.versionSent)
      (hdelivered : delivered E calls = delivered E l.calls) :
      Posts E p l (-1) ⟨⟨c, .sendFailed p c :: l.log⟩, calls⟩

/-- Hand over a frame behind which the direction is `d`. -/
private theorem transmit_posts {calls : List Call} {frame : Bytes} {d : Dir}
    (hopen : l.conn.state ≠ .closed) (hfits : p.length + 64 ≤ sshMaxPacket) {pad : Bytes}
    (hpad : pad.length = padLenOf (blockOf l.conn.outDir) p.length)
    (hframe : frame = sealPacket E l.conn.outDir (plainPacket p pad))
    (hd : d = l.conn.outDir.advance (plainPacket p pad).length)
    (hdelivered : delivered E calls = delivered E l.calls) :
    wp (framePacket.transmit E frame)
      (fun ret l' => Posts E p l ret ⟨⟨l'.conn,
        (if ret = 0 then .sent p l.conn else .sendFailed p l'.conn) :: l'.log⟩, l'.calls⟩)
      anyFault ⟨⟨{ l.conn with outDir := d }, l.log⟩, calls⟩ := by
  subst hframe hd
  simp only [framePacket.transmit, wp_bind, LinkM.wp_ask]
  refine wp.ite (fun hwr => ?_) fun hwr => ?_
  · refine .sent hopen hfits hpad ?_
    rw [delivered_write, if_pos hwr, hdelivered]
  · refine .lost rfl rfl rfl ?_
    rw [delivered_write, if_neg hwr, List.append_nil, hdelivered]

theorem sendPacket_posts : wp (sendPacket E p) (Posts E p l) anyFault l := by
  simp only [sendPacket, framePacket, wp_bind, LinkM.wp_conn, LinkM.wp_record, wp_pure]
  refine wp.ite (fun _ => .refused rfl) fun hgo => ?_
  have hopen : l.conn.state ≠ .closed := fun h => hgo (Or.inl h)
  have hfits : p.length + 64 ≤ sshMaxPacket := Nat.not_lt.mp fun h => hgo (Or.inr h)
  simp only [wp_bind, LinkM.wp_ask]
  generalize hlen : padLenOf (blockOf l.conn.outDir) p.length = padLen
  cases E.random l.calls padLen with
  | none => exact .refused (delivered_cons rfl _)
  | some pad =>
      have hpad : pad.toList.length = padLenOf (blockOf l.conn.outDir) p.length := by
        rw [hlen, List.Vector.toList_length]
      refine wp.ite (fun hactive => ?_) fun hactive => ?_
      · simp only [wp_bind, LinkM.wp_ask]
        refine wp.ite (fun _ => .refused ?_) fun _ => ?_
        · rw [delivered_cons rfl, delivered_cons rfl]
        simp only [wp_bind, LinkM.wp_ask]
        refine wp.ite (fun _ => .refused ?_) fun _ => ?_
        · rw [delivered_cons rfl, delivered_cons rfl, delivered_cons rfl]
        simp only [wp_bind, LinkM.wp_update]
        refine transmit_posts hopen hfits hpad ?_ ?_ ?_
        · rw [sealPacket, sealBytes, if_pos hactive, if_pos hactive]
        · simp only [Dir.advance, Dir.skip, if_pos hactive]
          rfl
        · rw [delivered_cons rfl, delivered_cons rfl, delivered_cons rfl]
      · simp only [wp_bind, LinkM.wp_update]
        refine transmit_posts hopen hfits hpad ?_ ?_ (delivered_cons rfl _)
        · rw [sealPacket, sealBytes, if_neg hactive, if_neg hactive, List.append_nil]
        · simp only [Dir.advance, Dir.skip, if_neg hactive]

/-- The outcomes of sending the version line. -/
inductive PostsVersion (E : Env) (l : Link) : Int → Link → Prop
  | earlier (h : l.conn.versionSent = true) : PostsVersion E l 0 l
  | sent {calls : List Call} (h : l.conn.versionSent = false)
      (hdelivered : delivered E calls =
        delivered E l.calls ++ [ascii sshServerVersion ++ [cr, lf]]) :
      PostsVersion E l 0 ⟨⟨{ l.conn with versionSent := true },
        .versionSent (ascii sshServerVersion ++ [cr, lf]) :: l.log⟩, calls⟩
  | lost {calls : List Call} (h : l.conn.versionSent = false)
      (hdelivered : delivered E calls = delivered E l.calls) :
      PostsVersion E l (-1) ⟨⟨{ l.conn with state := .closed }, l.log⟩, calls⟩

theorem sendVersion_posts : wp (sendVersion E) (PostsVersion E l) anyFault l := by
  simp only [sendVersion, wp_bind, LinkM.wp_conn]
  refine wp.ite (fun h => .earlier h) fun h => ?_
  rw [Bool.not_eq_true] at h
  simp only [wp_bind, LinkM.wp_ask]
  refine wp.ite (fun hwr => .lost h ?_) fun hwr => .sent h ?_
  · rw [delivered_write, if_neg (by simpa using hwr), List.append_nil]
  · rw [delivered_write, if_pos (by simpa using hwr)]

/-! ## The numbers -/

def Event.isSending : Event → Bool
  | .sent .. => true
  | _ => false

def Event.isArrival : Event → Bool
  | .dispatch .. => true
  | _ => false

/-- The number of packets sent. -/
def sentCount (log : List Event) : ℕ := log.countP Event.isSending

/-- The number of packets that arrived. -/
def arrivedCount (log : List Event) : ℕ := log.countP Event.isArrival

/-- A packet has the number of those before it in its direction; an arriving one is counted
by then. -/
def CarriesNumber : Event → List Event → Prop
  | .sent _ c, older => c.outDir.seq = UInt32.ofNat (sentCount older)
  | .dispatch _ _ _ c, older => c.inDir.seq = UInt32.ofNat (arrivedCount older + 1)
  | _, _ => True

structure Numbered (l : Link) : Prop where
  inward : l.conn.inDir.seq = UInt32.ofNat (arrivedCount l.log)
  outward : l.conn.state ≠ .closed → l.conn.outDir.seq = UInt32.ofNat (sentCount l.log)
  past : Along CarriesNumber l.log

theorem seqOf_succ (n : ℕ) : UInt32.ofNat (n + 1) = UInt32.ofNat n + 1 := UInt32.ofNat_add n 1

/-- Changes that the counters are not part of, and an event that is no packet. -/
theorem Numbered.congr {l' : Link} (h : Numbered l) (es : List Event)
    (hin : l'.conn.inDir.seq = l.conn.inDir.seq)
    (hout : l'.conn.state ≠ .closed →
      l.conn.state ≠ .closed ∧ l'.conn.outDir.seq = l.conn.outDir.seq)
    (hlog : l'.log = es ++ l.log)
    (hes : ∀ e ∈ es, e.isSending = false ∧ e.isArrival = false) : Numbered l' := by
  have hsent : sentCount l'.log = sentCount l.log := by
    rw [hlog, sentCount, List.countP_append, List.countP_eq_zero.mpr, Nat.zero_add, sentCount]
    exact fun e he => by simp [(hes e he).1]
  have harrived : arrivedCount l'.log = arrivedCount l.log := by
    rw [hlog, arrivedCount, List.countP_append, List.countP_eq_zero.mpr, Nat.zero_add, arrivedCount]
    exact fun e he => by simp [(hes e he).2]
  refine ⟨?_, fun hopen => ?_, ?_⟩
  · rw [hin, harrived, h.inward]
  · rw [(hout hopen).2, hsent, h.outward (hout hopen).1]
  · rw [hlog]
    refine h.past.append fun e newer older heq => ?_
    have he := hes e (by simp [heq])
    cases e with
    | sent => exact absurd he.1 (by simp [Event.isSending])
    | dispatch => exact absurd he.2 (by simp [Event.isArrival])
    | _ => trivial

theorem Posts.numbered {ret : Int} {l' : Link} (h : Posts E p l ret l') (hl : Numbered l) :
    Numbered l' := by
  cases h with
  | sent hopen =>
      have hseq := hl.outward hopen
      refine ⟨hl.inward, fun _ => ?_, hseq, hl.past⟩
      show l.conn.outDir.seq + 1 = _
      rw [hseq, sentCount, sentCount, List.countP_cons_of_pos rfl, seqOf_succ]
  | refused =>
      refine hl.congr [_] rfl (fun hopen => ⟨hopen, rfl⟩) rfl ?_
      simp [Event.isSending, Event.isArrival]
  | lost hclosed hin =>
      refine hl.congr [_] (by rw [hin]) (fun hopen => absurd hclosed hopen) rfl ?_
      simp [Event.isSending, Event.isArrival]

theorem numbered_sendInvariant :
    SendInvariant E (· ≠ msgNewkeys) (fun e => e.isPacket = false) Numbered where
  update hl hsame := hl.congr [] hsame.inSeq
    (fun hopen => ⟨hsame.isOpen hopen, by rw [hsame.outDir]⟩) rfl (by simp)
  ask hl _ := hl.congr [] rfl (fun hopen => ⟨hopen, rfl⟩) rfl (by simp)
  record {l e} hl he := by
    refine hl.congr [e] rfl (fun hopen => ⟨hopen, rfl⟩) rfl ?_
    cases e with
    | sent | dispatch => cases he
    | _ => simp [Event.isSending, Event.isArrival]
  send _ _ hl := wp.imp sendPacket_posts fun _ _ h => h.numbered hl

theorem numbered_linkInvariant : LinkInvariant E Numbered where
  toSendInvariant := numbered_sendInvariant
  switch := numbered_sendInvariant.switchKeys (J := Numbered) (by decide)
    (fun hl => wp.imp sendPacket_posts fun _ _ h =>
      ⟨fun _ => h.numbered hl, fun _ => h.numbered hl⟩)
    (fun hl _ => numbered_sendInvariant.ask (E := E) hl rfl)
    (fun _ hl => hl.congr [] rfl (fun hopen => ⟨hopen, rfl⟩) rfl (by simp))
  arrive {l} payload packet mac hl := by
    have hseq : l.conn.arrived.inDir.seq = UInt32.ofNat (arrivedCount l.log + 1) := by
      rw [Conn.arrived, hl.inward, seqOf_succ]
    refine ⟨?_, fun hopen => ?_, hseq, hl.past⟩
    · rw [hseq, arrivedCount, arrivedCount, List.countP_cons_of_pos rfl]
    · exact hl.outward hopen
  version l hl := wp.imp sendVersion_posts fun _ _ h => by
    cases h with
    | earlier => exact hl
    | sent =>
        refine hl.congr [_] rfl (fun hopen => ⟨hopen, rfl⟩) rfl ?_
        simp [Event.isSending, Event.isArrival]
    | lost => exact hl.congr [] rfl (fun hopen => absurd rfl hopen) rfl (by simp)

/-! ## The frames -/

/-- The frames that the transport accepted, oldest first: each packet sealed under the number
of packets sent before it, and the version line where it was sent. -/
inductive FramesOf (E : Env) : List Event → List Bytes → Prop
  | nil : FramesOf E [] []
  | sent {log : List Event} {frames : List Bytes} {p pad : Bytes} {c : Conn}
      (h : FramesOf E log frames) (hpad : pad.length = padLenOf (blockOf c.outDir) p.length) :
      FramesOf E (.sent p c :: log) (frames ++
        [sealPacket E { c.outDir with seq := UInt32.ofNat (sentCount log) } (plainPacket p pad)])
  | version {log : List Event} {frames : List Bytes} {line : Bytes} (h : FramesOf E log frames) :
      FramesOf E (.versionSent line :: log) (frames ++ [line])
  | other {log : List Event} {frames : List Bytes} {e : Event} (h : FramesOf E log frames)
      (hsent : e.isSending = false) (hversion : ∀ line, e ≠ .versionSent line) :
      FramesOf E (e :: log) frames

theorem FramesOf.last {log : List Event} {frames : List Bytes}
    (h : FramesOf E (.sent p c :: log) frames) : ∃ earlier pad, frames = earlier ++
      [sealPacket E { c.outDir with seq := UInt32.ofNat (sentCount log) } (plainPacket p pad)] := by
  cases h with
  | sent => exact ⟨_, _, rfl⟩
  | other _ hsent => cases hsent

/-- The packets are numbered, and what the transport accepted beyond `before` are their
frames. -/
structure Transmitted (E : Env) (before : List Bytes) (l : Link) : Prop where
  numbered : Numbered l
  framed : ∃ frames, delivered E l.calls = before ++ frames ∧ FramesOf E l.log frames

theorem Posts.transmitted {ret : Int} {l' : Link} {before : List Bytes} (h : Posts E p l ret l')
    (hl : Transmitted E before l) : Transmitted E before l' := by
  refine ⟨h.numbered hl.numbered, ?_⟩
  obtain ⟨frames, hframes, hframed⟩ := hl.framed
  cases h with
  | sent hopen _ hpad hdelivered =>
      have hdir : { l.conn.outDir with seq := UInt32.ofNat (sentCount l.log) } = l.conn.outDir := by
        rw [← hl.numbered.outward hopen]
      refine ⟨frames ++ [_], ?_, hframed.sent hpad⟩
      rw [hdelivered, hframes, hdir, List.append_assoc]
  | refused hdelivered | lost _ _ _ hdelivered =>
      exact ⟨frames, hdelivered.trans hframes, hframed.other rfl nofun⟩

theorem transmitted_sendInvariant {before : List Bytes} :
    SendInvariant E (· ≠ msgNewkeys) (fun e => e.isPacket = false) (Transmitted E before) where
  update hl hsame := ⟨numbered_sendInvariant.update (E := E) hl.numbered hsame, hl.framed⟩
  ask hl hcall := by
    refine ⟨numbered_sendInvariant.ask (E := E) hl.numbered hcall, ?_⟩
    rw [delivered_cons hcall]
    exact hl.framed
  record {l e} hl he := by
    refine ⟨numbered_sendInvariant.record (E := E) hl.numbered he, ?_⟩
    obtain ⟨frames, hframes, hframed⟩ := hl.framed
    exact ⟨frames, hframes, hframed.other (by cases e <;> first | rfl | cases he)
      (by rintro line rfl; cases he)⟩
  send _ _ hl := wp.imp sendPacket_posts fun _ _ h => h.transmitted hl

theorem transmitted_linkInvariant (before : List Bytes) :
    LinkInvariant E (Transmitted E before) where
  toSendInvariant := transmitted_sendInvariant
  switch := transmitted_sendInvariant.switchKeys (J := Transmitted E before) (by decide)
    (fun hl => wp.imp sendPacket_posts fun _ _ h =>
      ⟨fun _ => h.transmitted hl, fun _ => h.transmitted hl⟩)
    (fun hl _ => transmitted_sendInvariant.ask hl rfl)
    (fun _ hl => ⟨hl.numbered.congr [] rfl (fun hopen => ⟨hopen, rfl⟩) rfl (by simp), hl.framed⟩)
  arrive payload packet mac hl := by
    obtain ⟨frames, hframes, hframed⟩ := hl.framed
    exact ⟨(numbered_linkInvariant (E := E)).arrive payload packet mac hl.numbered, frames, hframes,
      hframed.other rfl nofun⟩
  version l hl := wp.imp (wp.both (numbered_linkInvariant.version l hl.numbered) sendVersion_posts)
    fun _ _ h => by
      obtain ⟨frames, hframes, hframed⟩ := hl.framed
      refine ⟨h.1, ?_⟩
      cases h.2 with
      | earlier => exact hl.framed
      | sent _ hdelivered =>
          refine ⟨frames ++ [_], ?_, hframed.version⟩
          rw [hdelivered, hframes, List.append_assoc]
      | lost _ hdelivered => exact ⟨frames, hdelivered.trans hframes, hframed⟩

/-! ## The MAC of what arrives -/

/-- A packet is recorded as it arrives. -/
theorem Step.dispatch_mem (h : Step E s t) (he : .dispatch p packet mac c ∈ t.log) :
    .dispatch p packet mac c ∈ s.log ∨ (Arrives E s p packet mac ∧ c = s.conn) := by
  have hsends : ∀ {P : UInt8 → Prop} {u v : Session}, Sends P u v →
      .dispatch p packet mac c ∈ v.log → .dispatch p packet mac c ∈ u.log :=
    fun h => (h.mem_iff rfl).mp
  -- what is recorded besides is no arrival
  have hother : ∀ {e : Event} {log : List Event}, e.isArrival = false →
      .dispatch p packet mac c ∈ e :: log → .dispatch p packet mac c ∈ log := fun he hmem =>
    (List.mem_cons.mp hmem).resolve_left fun heq => by rw [← heq] at he; cases he
  have harrives : ∀ {p' packet' mac' : Bytes}, Arrives E s p' packet' mac' →
      .dispatch p packet mac c ∈ (s.dispatched p' packet' mac').log →
      .dispatch p packet mac c ∈ s.log ∨ (Arrives E s p packet mac ∧ c = s.conn) := by
    intro p' packet' mac' harr hmem
    rcases List.mem_cons.mp hmem with heq | hmem
    · cases heq
      exact .inr ⟨harr, rfl⟩
    · exact .inl hmem
  cases h with
  | decrypt | close | acceptVersion | setUser | resize | shell | clientEof | clientClose =>
      exact .inl he
  | dispatch _ _ _ harr | skipGuess harr => exact harrives harr he
  | disconnect h => exact .inl (hsends h.sends he)
  | reply _ _ h | writeLost _ _ h | writeData _ _ _ _ _ h => exact .inl (hsends h.sends he)
  | closeReply _ _ _ _ h =>
      have hold := hsends h.sends he
      exact .inl hold
  | versionSent | accepted | readEnd | data | adjust => exact .inl (hother rfl he)
  | firstKexInit _ _ _ h =>
      obtain ⟨_, _, h⟩ := h.sends
      have hold := hsends h he
      exact .inl hold
  | firstKexInitFailed _ _ h =>
      obtain ⟨_, _, h⟩ := h.sends
      have hold := hsends h he
      exact .inl hold
  | @kexInit q packet' mac' _ harr _ hend =>
      refine harrives harr (hend.keeps (I := fun u => .dispatch p packet mac c ∈ u.log →
        .dispatch p packet mac c ∈ (s.dispatched q packet' mac').log) ?_ ?_ ?_ id he)
      · exact fun _ _ h => h
      · exact fun _ _ h hold hmem => hold (hsends h hmem)
      · exact fun _ _ h => h
  | exchange x hx hend =>
      refine .inl (hend.keeps (I := fun u => .dispatch p packet mac c ∈ u.log →
        .dispatch p packet mac c ∈ s.log) ?_ ?_ (hother rfl) he)
      · exact fun _ _ h hold hmem => hold (hsends h hmem)
      · exact fun _ _ _ h => h
  | @newKeys q packet' mac' _ harr _ hend =>
      refine harrives harr (hend.keeps (I := fun u => .dispatch p packet mac c ∈ u.log →
        .dispatch p packet mac c ∈ (s.dispatched q packet' mac').log) ?_ ?_ id he)
      · exact fun _ _ h hold hmem => hold (hsends h hmem)
      · exact fun _ h => h
  | authAccepted _ _ _ _ h =>
      have hold := hsends h.sends he
      exact .inl (hother rfl hold)
  | authRejected _ _ _ _ _ h =>
      have hold := hsends h.sends he
      exact .inl (hother rfl hold)
  | authExhausted _ _ h =>
      have hold := hsends h.sends he
      exact .inl (hother rfl hold)
  | openChannel _ _ _ _ _ _ _ _ h =>
      have hold := hsends h.sends he
      exact .inl (hother rfl hold)
  | read max _ hcredit =>
      obtain ⟨u, consumed, h, rfl⟩ := hcredit.sends
      have hold := hsends h he
      exact .inl (hother rfl hold)
  | startClose _ _ _ _ h =>
      obtain ⟨u, hall, rfl⟩ := h.sends
      exact .inl (hsends hall he)

/-- What has arrived under a key carries the MAC over its number. -/
def MacFits (E : Env) (s : Session) : Prop :=
  ∀ p packet mac c, .dispatch p packet mac c ∈ s.log → c.inDir.active = true →
    mac = macOf E { c.inDir with seq := c.inDir.seq - 1 } packet

theorem Step.macFits (h : Step E s t) (hs : MacFits E s) : MacFits E t := by
  intro p packet mac c hmem hactive
  rcases h.dispatch_mem hmem with hmem | ⟨harrives, rfl⟩
  · exact hs p packet mac c hmem hactive
  · exact harrives.mac hactive

/-! ## The results -/

theorem Reachable.transmitted {s : Server} (h : Reachable E s) :
    ∃ before, Transmitted E before s.link := by
  obtain ⟨_, _, _, _, s₀, hnew, hruns⟩ := h
  refine ⟨delivered E s₀.link.calls,
    (transmitted_linkInvariant _).dispatchInvariant.partInvariant.runs hruns ?_⟩
  have hstart := (sshNew_eq hnew).1
  have hconn := congrArg Session.conn hstart
  have hlog := congrArg Session.log hstart
  refine ⟨⟨?_, fun _ => ?_, ?_⟩, [], (List.append_nil _).symm, ?_⟩ <;> rw [hlog]
  · rw [hconn]
    rfl
  · rw [hconn]
    rfl
  · trivial
  · exact .nil

theorem Reachable.numbered {s : Server} (h : Reachable E s) : Numbered s.link :=
  h.transmitted.elim fun _ h => h.numbered

/-- **Packets are numbered.**  Across all key exchanges, the packets sent are numbered 0, 1, 2
and so on, modulo 2^32, in the order in which they were sent, and what the transport has
accepted of this server are the frames of these packets, in this order, each with the MAC of
its number, and the version line; the packets that arrive are numbered in the same way, and
the MAC of one that arrives under a key is right for its own number. -/
theorem packets_numbered {s : Server} (h : Reachable E s) :
    (∀ newer older p c, s.link.log = newer ++ .sent p c :: older →
      c.outDir.seq = UInt32.ofNat (sentCount older)) ∧
    (∃ before frames, delivered E s.link.calls = before ++ frames ∧
      FramesOf E s.link.log frames) ∧
    (∀ newer older p packet mac c, s.link.log = newer ++ .dispatch p packet mac c :: older →
      c.inDir.seq = UInt32.ofNat (arrivedCount older + 1) ∧
      (c.inDir.active = true →
        mac = macOf E { c.inDir with seq := UInt32.ofNat (arrivedCount older) } packet)) := by
  have hnumbered := along_iff.mp h.numbered.past
  have hmac : MacFits E s.link.toSession :=
    h.invariant (by simp [MacFits]) fun _ _ => Step.macFits
  obtain ⟨before, htransmitted⟩ := h.transmitted
  refine ⟨fun newer older p c hlog => hnumbered newer _ older hlog, ⟨before, htransmitted.framed⟩,
    fun newer older p packet mac c hlog => ⟨hnumbered newer _ older hlog, fun hactive => ?_⟩⟩
  have hseq : c.inDir.seq = UInt32.ofNat (arrivedCount older + 1) := hnumbered newer _ older hlog
  rw [hmac p packet mac c (by simp [hlog]) hactive, hseq, seqOf_succ, UInt32.add_sub_cancel]

/-- The answer to the opening of a channel is the sixth packet of a session, and its frame
carries the number 5. -/
theorem packets_numbered_login : ∃ s p pad c older frames,
    Reachable (plainEnv fun _ _ => true) s ∧ s.link.log = .sent p c :: older ∧
    sentCount older = 5 ∧ c.outDir.seq = 5 ∧
    delivered (plainEnv fun _ _ => true) s.link.calls = frames ++
      [sealPacket (plainEnv fun _ _ => true) { c.outDir with seq := 5 } (plainPacket p pad)] := by
  obtain ⟨s, hreach, hcount, hlast⟩ := exists_reachable (E := plainEnv fun _ _ => true)
    (P := fun s => sentCount s.link.log = 6 ∧ s.link.log.head?.any Event.isSending = true)
    [.poll] [.data (clientLogin "root" "secret")] (by decide +kernel)
  obtain ⟨hsent, ⟨before, frames, hframes, hframed⟩, -⟩ := packets_numbered hreach
  obtain ⟨p, c, older, hlog⟩ : ∃ p c older, s.link.log = .sent p c :: older := by
    rcases hevents : s.link.log with _ | ⟨e, older⟩ <;> rw [hevents] at hlast
    · cases hlast
    · cases e with
      | sent p c => exact ⟨p, c, older, rfl⟩
      | _ => cases hlast
  have hfive : sentCount older = 5 := by
    rw [hlog, sentCount, List.countP_cons_of_pos rfl] at hcount
    exact Nat.succ.inj hcount
  have hseq := hsent [] older p c hlog
  rw [hlog] at hframed
  obtain ⟨earlier, pad, rfl⟩ := hframed.last
  rw [hfive] at hseq hframes
  exact ⟨s, p, pad, c, older, before ++ earlier, hreach, hlog, hfive, hseq, by
    rw [hframes, List.append_assoc]
    rfl⟩

/-- What the MAC of a packet is computed over. -/
def macInput (number : ℕ) (packet : Bytes) : Bytes := putU32 (UInt32.ofNat number) ++ packet

theorem macInput_inj {m n : ℕ} {packet packet' : Bytes} (hm : m < n) (hn : n - m < 2 ^ 32) :
    macInput m packet ≠ macInput n packet' := by
  intro heq
  have hnumber := congrArg getU32 heq
  rw [macInput, macInput, getU32_putU32_append, getU32_putU32_append] at hnumber
  have hmod := congrArg UInt32.toNat hnumber
  rw [UInt32.toNat_ofNat', UInt32.toNat_ofNat'] at hmod
  omega

/-- The MAC of a packet, out of the MAC key in use and the number. -/
theorem macOf_congr {d d' : Dir} (htype : d'.macType = d.macType)
    (hkey : d'.macKey.take d'.macLen = d.macKey.take d.macLen) (hseq : d'.seq = d.seq) :
    macOf E d' packet = macOf E d packet := by
  unfold macOf
  rw [hkey, hseq, htype]

/-- **No replay.**  When the same packet with the same MAC is accepted a second time under the
same keys, fewer than 2^32 packets later, the HMAC collides under the connection's own type
and key, on two inputs that are known: the packet behind each of the two numbers. -/
theorem replay_collides {s : Server} (h : Reachable E s) {newer middle older : List Event}
    {p p' packet mac : Bytes} {c c' : Conn}
    (hlog : s.link.log =
      newer ++ .dispatch p packet mac c :: (middle ++ .dispatch p' packet mac c' :: older))
    (hactive : c.inDir.active = true) (hkeys : c.inDir.keys = c'.inDir.keys)
    (hnear : arrivedCount middle + 1 < 2 ^ 32) :
    let m := arrivedCount older
    let n := arrivedCount (middle ++ .dispatch p' packet mac c' :: older)
    macInput m packet ≠ macInput n packet ∧
      E.hmac c.inDir.macType (c.inDir.macKey.take c.inDir.macLen) (macInput m packet) =
        E.hmac c.inDir.macType (c.inDir.macKey.take c.inDir.macLen) (macInput n packet) := by
  obtain ⟨-, -, harrivals⟩ := packets_numbered h
  obtain ⟨-, hmac⟩ := harrivals newer _ p packet mac c hlog
  obtain ⟨-, hmac'⟩ := harrivals (newer ++ .dispatch p packet mac c :: middle) older p' packet mac
    c' (by rw [hlog, List.append_assoc, List.cons_append])
  have hcount : arrivedCount (middle ++ .dispatch p' packet mac c' :: older) =
      arrivedCount older + (arrivedCount middle + 1) := by
    rw [arrivedCount, List.countP_append, List.countP_cons_of_pos rfl, arrivedCount, arrivedCount]
    omega
  have hactive' : c'.inDir.active = true := by
    by_contra hno
    rw [Dir.keys, if_pos hactive, Dir.keys, if_neg hno] at hkeys
    cases hkeys
  rw [Dir.keys, if_pos hactive, Dir.keys, if_pos hactive', Option.some.injEq,
    DirKeys.mk.injEq] at hkeys
  obtain ⟨-, -, hkey, htype⟩ := hkeys
  have hsame : macOf E { c'.inDir with seq := UInt32.ofNat (arrivedCount older) } packet =
      macOf E { c.inDir with seq := UInt32.ofNat (arrivedCount older) } packet :=
    macOf_congr htype.symm hkey.symm rfl
  have heq := ((hmac hactive).symm.trans (hmac' hactive')).trans hsame
  refine ⟨macInput_inj ?_ ?_, Subtype.ext heq.symm⟩ <;> rw [hcount] <;> omega

/-- The last two packets are the same and came under the same keys. -/
def acceptedTwice : List Event → Bool
  | .dispatch _ packet mac c :: .dispatch _ packet' mac' c' :: _ =>
      packet = packet' && mac = mac' && c.inDir.active && c.inDir.keys = c'.inDir.keys
  | _ => false

/-- On a platform whose HMAC is constant an `IGNORE` is accepted again, behind three packets
and behind four. -/
theorem replay_collides_ignore : ∃ type key packet,
    macInput 3 packet ≠ macInput 4 packet ∧
      (plainEnv fun _ _ => true).hmac type key (macInput 3 packet) =
        (plainEnv fun _ _ => true).hmac type key (macInput 4 packet) := by
  obtain ⟨s, hreach, htwice, hcount⟩ := exists_reachable
    (P := fun s => acceptedTwice s.link.log = true ∧ arrivedCount s.link.log = 5)
    (E := plainEnv fun _ _ => true) [.poll]
    [.data (clientKex ++ sealedFrame [msgIgnore] ++ sealedFrame [msgIgnore])] (by decide +kernel)
  unfold acceptedTwice at htwice
  split at htwice
  · next p packet mac c p' packet' mac' c' older hlog =>
      simp only [Bool.and_eq_true, decide_eq_true_eq] at htwice
      obtain ⟨⟨⟨rfl, rfl⟩, hactive⟩, hkeys⟩ := htwice
      have hlast : s.link.log = [] ++ .dispatch p packet mac c ::
          ([] ++ .dispatch p' packet mac c' :: older) := hlog
      have hfirst : arrivedCount older = 3 := by
        rw [hlog, arrivedCount, List.countP_cons_of_pos rfl, List.countP_cons_of_pos rfl] at hcount
        exact Nat.succ.inj (Nat.succ.inj hcount)
      have hsecond : arrivedCount ([] ++ .dispatch p' packet mac c' :: older) = 4 := by
        rw [List.nil_append, arrivedCount, List.countP_cons_of_pos rfl]
        exact congrArg (· + 1) hfirst
      have hcollides := replay_collides hreach hlast hactive hkeys (by decide)
      simp only [hfirst, hsecond] at hcollides
      exact ⟨_, _, packet, hcollides⟩
  · cases htwice

end EfiSshServer
