import EfiSshServer.LinkInvariant

/-!
# What the channel's packets bring

Three packets move the flow of the channel: the `CHANNEL_OPEN` that opens it, a
`CHANNEL_DATA` and a `WINDOW_ADJUST`.  What such a packet brings is read off its payload
and the connection it arrives in, whatever the server does with it (`Conn.brings`).

`retell` forgets what the handlers recorded and puts in its place what the packets
brought.  It changes no log of a run (`Reachable.retell_eq`): each handler has done what
its packet asks for, at once and only once.
-/

namespace EfiSshServer

open StateProgram LinkM

variable {E : Env} {p packet mac : Bytes} {c : Conn} {e : Event} {log : List Event} {l : Link}

/-! ## What a packet brings -/

/-- The data of a `CHANNEL_DATA` for the open channel. -/
def Conn.dataOf (c : Conn) (p : Bytes) : Option Bytes :=
  let recipient := rU32 (rInit (p.drop 1))
  let d := rStr recipient.rest
  if msgOf p = msgChannelData ∧ c.state ≠ .version ∧ recipient.val = 0 ∧
      c.chan.chanOpen = true ∧ d.rest.err = false then some d.val else none

/-- The amount of a `WINDOW_ADJUST`. -/
def Conn.adjustOf (c : Conn) (p : Bytes) : Option UInt32 :=
  let add := rU32 (rU32 (rInit (p.drop 1))).rest
  if msgOf p = msgChannelWindowAdjust ∧ c.state ≠ .version ∧ add.rest.err = false then
    some add.val
  else none

/-- The window and the maximum packet size of the `CHANNEL_OPEN` that opens the channel. -/
def Conn.openOf (c : Conn) (p : Bytes) : Option (UInt32 × UInt32) :=
  let type := rStr (rInit (p.drop 1))
  let sender := rU32 type.rest
  let window := rU32 sender.rest
  let maxPkt := rU32 window.rest
  if msgOf p = msgChannelOpen ∧ c.state = .conn ∧ maxPkt.rest.err = false ∧
      nameIs type.val "session" = true ∧ c.chan.chanOpen = false then
    some (window.val, maxPkt.val)
  else none

/-- What the packet `p` brings that arrives in `c`. -/
def Conn.brings (c : Conn) (p : Bytes) : Option Event :=
  ((c.dataOf p).map fun d => .received d c).or
    (((c.adjustOf p).map Event.adjusted).or ((c.openOf p).map fun o => .opened o.1 o.2))

theorem Conn.dataOf_eq_none (h : msgOf p ≠ msgChannelData) : c.dataOf p = none :=
  if_neg fun hand => h hand.1

theorem Conn.adjustOf_eq_none (h : msgOf p ≠ msgChannelWindowAdjust) : c.adjustOf p = none :=
  if_neg fun hand => h hand.1

theorem Conn.openOf_eq_none (h : msgOf p ≠ msgChannelOpen) : c.openOf p = none :=
  if_neg fun hand => h hand.1

theorem Conn.brings_data (h : msgOf p = msgChannelData) :
    c.brings p = (c.dataOf p).map fun d => .received d c := by
  rw [brings, adjustOf_eq_none (by rw [h]; decide), openOf_eq_none (by rw [h]; decide)]
  exact Option.or_none

theorem Conn.brings_adjust (h : msgOf p = msgChannelWindowAdjust) :
    c.brings p = (c.adjustOf p).map Event.adjusted := by
  rw [brings, dataOf_eq_none (by rw [h]; decide), openOf_eq_none (by rw [h]; decide)]
  exact Option.or_none

theorem Conn.brings_open (h : msgOf p = msgChannelOpen) :
    c.brings p = (c.openOf p).map fun o => .opened o.1 o.2 := by
  rw [brings, dataOf_eq_none (by rw [h]; decide), adjustOf_eq_none (by rw [h]; decide)]
  rfl

/-- What a packet brings is of one kind. -/
inductive Conn.Bringing (c : Conn) (p : Bytes) : Prop
  | data (d : Bytes) (hdata : c.dataOf p = some d) (hadjust : c.adjustOf p = none)
      (hopen : c.openOf p = none) (h : c.brings p = some (.received d c))
  | adjust (add : UInt32) (hdata : c.dataOf p = none) (hadjust : c.adjustOf p = some add)
      (hopen : c.openOf p = none) (h : c.brings p = some (.adjusted add))
  | opening (window maxPkt : UInt32) (hdata : c.dataOf p = none) (hadjust : c.adjustOf p = none)
      (hopen : c.openOf p = some (window, maxPkt)) (h : c.brings p = some (.opened window maxPkt))
  | nothing (hdata : c.dataOf p = none) (hadjust : c.adjustOf p = none) (hopen : c.openOf p = none)
      (h : c.brings p = none)

theorem Conn.bringing (c : Conn) (p : Bytes) : c.Bringing p := by
  have hdata : c.dataOf p ≠ none → msgOf p = msgChannelData := fun h => by
    by_contra hmsg
    exact h (dataOf_eq_none hmsg)
  have hadjust : c.adjustOf p ≠ none → msgOf p = msgChannelWindowAdjust := fun h => by
    by_contra hmsg
    exact h (adjustOf_eq_none hmsg)
  cases hd : c.dataOf p with
  | some d =>
      have hmsg := hdata (by rw [hd]; exact Option.some_ne_none d)
      exact .data d hd (adjustOf_eq_none (by rw [hmsg]; decide))
        (openOf_eq_none (by rw [hmsg]; decide)) (by rw [brings_data hmsg, hd]; rfl)
  | none =>
      cases ha : c.adjustOf p with
      | some add =>
          have hmsg := hadjust (by rw [ha]; exact Option.some_ne_none add)
          exact .adjust add hd ha (openOf_eq_none (by rw [hmsg]; decide))
            (by rw [brings_adjust hmsg, ha]; rfl)
      | none =>
          have hb : c.brings p = (c.openOf p).map fun o => .opened o.1 o.2 := by
            rw [brings, hd, ha]
            rfl
          cases ho : c.openOf p with
          | some o => exact .opening o.1 o.2 hd ha ho (by rw [hb, ho]; rfl)
          | none => exact .nothing hd ha ho (by rw [hb, ho]; rfl)

/-- Other messages bring nothing. -/
theorem Conn.brings_eq_none (h : msgOf p ∉ bringingMessages) : c.brings p = none := by
  simp only [bringingMessages, List.mem_cons, List.not_mem_nil, or_false, not_or] at h
  rw [brings, dataOf_eq_none h.2.1, adjustOf_eq_none h.2.2, openOf_eq_none h.1]
  rfl

/-! ## The log told by the packets -/

/-- The log with what the packets brought in place of what their handlers recorded. -/
def retell : List Event → List Event
  | [] => []
  | .dispatch p packet mac c :: log => (c.brings p).toList ++ .dispatch p packet mac c :: retell log
  | e :: log => if e.isBrought then retell log else e :: retell log

/-- The log is as the packets tell it, but that `brought` is still to be recorded. -/
def Retold (brought : Option Event) (log : List Event) : Prop :=
  retell log = brought.toList ++ log

/-- An event that is neither a packet nor what one brings. -/
def Event.isAside : Event → Bool
  | .dispatch .. => false
  | e => !e.isBrought

theorem retell_aside (he : e.isAside = true) : retell (e :: log) = e :: retell log := by
  cases e with
  | dispatch | opened | adjusted | received => cases he
  | _ => rfl

theorem retell_brought (he : e.isBrought = true) : retell (e :: log) = retell log := by
  cases e with
  | opened | adjusted | received => rfl
  | _ => cases he

theorem Retold.aside (h : Retold none log) (he : e.isAside = true) : Retold none (e :: log) := by
  rw [Retold, Option.toList_none, List.nil_append] at h ⊢
  rw [retell_aside he, h]

theorem Retold.brought (h : Retold (some e) log) (he : e.isBrought = true) :
    Retold none (e :: log) := by
  rw [Retold, retell_brought he, h]
  rfl

theorem Retold.dispatched (h : Retold none log) :
    Retold (c.brings p) (.dispatch p packet mac c :: log) := by
  rw [Retold, Option.toList_none, List.nil_append] at h
  rw [Retold, retell, h]

/-! ## The handlers -/

theorem retold_handlerInvariant :
    HandlerInvariant E (fun e => e.isAside = true) (fun l => Retold none l.log) :=
  handlerInvariant_of_log (fun he h => h.aside he) (fun _ _ => rfl) fun _ _ => rfl

/-- Any message can be sent. -/
theorem sendPacket_retold (h : Retold none l.log) :
    wp (sendPacket E p) (fun _ l' => Retold none l'.log) anyFault l :=
  have hsend : SendInvariant E (fun _ => True) (fun e => e.isAside = true)
      fun l => Retold none l.log :=
    sendInvariant_of_log (fun he h => h.aside he) (fun _ _ => rfl) fun _ _ => rfl
  hsend.send trivial l h

theorem fail_retold (reason : UInt32) (msg : String) (h : Retold none l.log) :
    wp (fail E reason msg) (fun _ l' => Retold none l'.log) anyFault l :=
  retold_handlerInvariant.fail reason msg l h

/-- The data is pushed into the ring. -/
theorem handleChannelData_retold (hmsg : msgOf p = msgChannelData)
    (hversion : l.conn.state ≠ .version) (h : Retold (l.conn.brings p) l.log) :
    wp (handleChannelData E p) (fun _ l' => Retold none l'.log) anyFault l := by
  rw [Conn.brings_data hmsg, Conn.dataOf] at h
  simp only [handleChannelData, wp_bind, LinkM.wp_conn]
  refine wp.ite (fun hbad => ?_) fun hgood => ?_
  · have hnot : ¬ (l.conn.chan.chanOpen = true ∧ (rU32 (rInit (p.drop 1))).val = 0) := by
      rintro ⟨hopen, hrecipient⟩
      exact hbad.elim (fun h => h hrecipient) fun h => by simp [hopen] at h
    rw [if_neg fun hand => hnot ⟨hand.2.2.2.1, hand.2.2.1⟩] at h
    exact fail_retold _ _ h
  obtain ⟨hrecipient, hopen⟩ := not_or.mp hgood
  refine wp.ite (fun herr => ?_) fun hok => ?_
  · rw [if_neg (by rw [herr]; simp)] at h
    exact fail_retold _ _ h
  · rw [if_pos ⟨hmsg, hversion, not_not.mp hrecipient, by simpa using hopen,
      by simpa using hok⟩] at h
    exact h.brought rfl

/-- The amount is added to the window. -/
theorem handleWindowAdjust_retold (hmsg : msgOf p = msgChannelWindowAdjust)
    (hversion : l.conn.state ≠ .version) (h : Retold (l.conn.brings p) l.log) :
    wp (handleWindowAdjust p) (fun _ l' => Retold none l'.log) anyFault l := by
  rw [Conn.brings_adjust hmsg, Conn.adjustOf] at h
  simp only [handleWindowAdjust, updateChan]
  refine wp.ite (fun herr => ?_) fun hok => ?_
  · rwa [if_neg (by rw [herr]; simp)] at h
  · rw [if_pos ⟨hmsg, hversion, by simpa using hok⟩] at h
    exact h.brought rfl

/-- The channel is opened. -/
theorem handleChannelOpen_retold (hmsg : msgOf p = msgChannelOpen) (hstate : l.conn.state = .conn)
    (h : Retold (l.conn.brings p) l.log) :
    wp (handleChannelOpen E p) (fun _ l' => Retold none l'.log) anyFault l := by
  rw [Conn.brings_open hmsg, Conn.openOf] at h
  simp only [handleChannelOpen, updateChan]
  refine wp.ite (fun herr => ?_) fun hok => ?_
  · rw [if_neg (by rw [herr]; simp)] at h
    exact fail_retold _ _ h
  simp only [wp_bind, LinkM.wp_conn]
  refine wp.ite (fun hfirst => ?_) fun hother => ?_
  · rw [if_pos ⟨hmsg, hstate, by simpa using hok, hfirst⟩] at h
    simp only [wp_bind, LinkM.wp_update, LinkM.wp_record]
    exact sendPacket_retold (h.brought rfl)
  · rw [if_neg fun hand => hother hand.2.2.2] at h
    exact sendPacket_retold h

theorem handleMessage_retold (hversion : l.conn.state ≠ .version)
    (h : Retold (l.conn.brings p) l.log) :
    wp (handleMessage E (msgOf p) p) (fun _ l' => Retold none l'.log) anyFault l := by
  by_cases hmsg : msgOf p ∈ bringingMessages
  · simp only [bringingMessages, List.mem_cons, List.not_mem_nil, or_false] at hmsg
    rcases hmsg with hmsg | hmsg | hmsg
    · rw [hmsg, handleMessage_channelOpen, wp_bind, LinkM.wp_conn]
      refine wp.ite (fun hstate => ?_) fun hstate => ?_
      · rw [Conn.brings_open hmsg, Conn.openOf, if_neg fun hand => hstate hand.2.1] at h
        exact fail_retold _ _ h
      · exact handleChannelOpen_retold hmsg (not_not.mp hstate) h
    · rw [hmsg, handleMessage_channelData]
      exact handleChannelData_retold hmsg hversion h
    · rw [hmsg, handleMessage_windowAdjust]
      exact handleWindowAdjust_retold hmsg hversion h
  · rw [Conn.brings_eq_none hmsg] at h
    exact retold_handlerInvariant.handleMessage rfl (fun _ _ _ => rfl) (fun _ _ _ _ _ => rfl)
      (fun hbrings => absurd hbrings hmsg) l h

/-- A packet of the key exchange brings nothing, and neither does one that comes ahead of
the version. -/
theorem handlePacket_retold (h : Retold (l.conn.brings p) l.log) :
    wp (handlePacket E p) (fun _ l' => Retold none l'.log) anyFault l := by
  cases p with
  | nil =>
      rw [Conn.brings_eq_none (by decide)] at h
      exact fail_retold _ _ h
  | cons msg rest =>
      simp only [handlePacket, updateKx, wp_bind, LinkM.wp_conn]
      refine wp.ite (fun hguess => ?_) fun _ => wp.ite (fun hversion => ?_) fun hversion => ?_
      · have hmsg : msgOf (msg :: rest) ∉ bringingMessages := by
          intro hmsg
          simp only [bringingMessages, List.mem_cons, List.not_mem_nil, or_false] at hmsg
          have hkex : msgOf (msg :: rest) ≤ 49 := hguess.2.2
          rcases hmsg with hmsg | hmsg | hmsg <;> rw [hmsg] at hkex <;>
            exact absurd hkex (by decide)
        rwa [Conn.brings_eq_none hmsg] at h
      · have hnothing : l.conn.brings (msg :: rest) = none := by
          rw [Conn.brings, Conn.dataOf, Conn.adjustOf, Conn.openOf, hversion]
          simp
        rw [hnothing] at h
        exact fail_retold _ _ h
      · exact handleMessage_retold hversion h

theorem retold_dispatchInvariant : DispatchInvariant E fun l => Retold none l.log where
  toSendInvariant := {
    update hl _ := hl
    ask hl _ := hl
    record {_ e} hl he := hl.aside (by cases e <;> first | rfl | cases he)
    send _ _ hl := sendPacket_retold hl }
  take {_ e} hl he := hl.aside (by cases e <;> first | rfl | cases he)
  dispatch payload packet mac l hl := by
    simp only [dispatch, wp_bind, LinkM.wp_update, LinkM.wp_record]
    exact handlePacket_retold hl.dispatched
  version := sendVersion_keeps_log fun h => h.aside rfl

/-- The handlers have done what the packets ask for. -/
theorem Reachable.retell_eq {s : Server} (h : Reachable E s) : retell s.link.log = s.link.log := by
  obtain ⟨_, _, _, _, s₀, hnew, hruns⟩ := h
  refine retold_dispatchInvariant.partInvariant.runs hruns ?_
  have hlog : s₀.link.log = [] := congrArg Session.log (sshNew_eq hnew).1
  rw [hlog]
  rfl

end EfiSshServer
