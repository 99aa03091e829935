import EfiSshServer.Flow
import EfiSshServer.Arrivals

/-!
# Outbound flow control

The server never sends more data than the client has granted.  The grants are
counted as natural numbers, off the packets that have arrived; `remoteWindow` is a
32-bit counter that a client can make wrap, and wrapping only ever takes window away.
For a client whose outstanding grant fits into 32 bits the counter is exact.

`Outbound` says this of what the handlers have recorded, and `retell` of the packets.
-/

namespace EfiSshServer

variable {E : Env} {s t : Session} {log : List Event}

/-! ## What the log says -/

/-- The window recorded of the `CHANNEL_OPEN` and the amounts recorded since. -/
def granted : List Event → ℕ
  | [] => 0
  | .opened window _ :: _ => window.toNat
  | .adjusted add :: log => granted log + add.toNat
  | _ :: log => granted log

/-- The data of a `CHANNEL_DATA` packet, behind the channel and the length. -/
def channelData (p : Bytes) : Bytes := p.drop 9

/-- The number of `CHANNEL_DATA` bytes sent since the opening that is recorded. -/
def dataSent : List Event → ℕ
  | [] => 0
  | .opened _ _ :: _ => 0
  | .sent p _ :: log =>
      dataSent log + if msgOf p = msgChannelData then (channelData p).length else 0
  | _ :: log => dataSent log

/-- Every `CHANNEL_DATA` packet kept to the client's limits of that moment. -/
def DataWithinLimits : List Event → Prop
  | [] => True
  | .sent p c :: log => (msgOf p = msgChannelData →
      (channelData p).length ≤ min c.chan.remoteMaxPkt.toNat sshDataChunk ∧
        (channelData p).length ≤ c.chan.remoteWindow.toNat) ∧ DataWithinLimits log
  | _ :: log => DataWithinLimits log

/-- Since the channel was opened, the outstanding grant always fitted into 32 bits. -/
def GrantsFit : List Event → Prop
  | [] => True
  | .opened _ _ :: _ => True
  | .adjusted add :: log => granted log + add.toNat ≤ dataSent log + (2 ^ 32 - 1) ∧ GrantsFit log
  | _ :: log => GrantsFit log

/-- The channel was opened. -/
def WasOpened : List Event → Prop
  | [] => False
  | .opened _ _ :: _ => True
  | _ :: log => WasOpened log

theorem channelData_channelDataPayload (remoteChan : UInt32) {d : Bytes}
    (hd : d.length ≤ sshDataChunk) :
    channelData (channelDataPayload remoteChan d).data = d := by
  have hhead : ((wInit sshPlBuf).wByte msgChannelData).wU32 remoteChan =
      ⟨msgChannelData :: putU32 remoteChan, sshPlBuf, false, false⟩ :=
    rfl
  rw [sshDataChunk] at hd
  rw [channelDataPayload, hhead, WBuf.wStr_eq]
  · rfl
  · rw [List.length_cons, length_putU32, sshPlBuf, sshMaxPacket]
    omega
  · rw [rtInsaneLen]
    omega

theorem dataSent_sent {p : Bytes} (hmsg : msgOf p ≠ msgChannelData) (c : Conn) :
    dataSent (.sent p c :: log) = dataSent log := by
  rw [dataSent, if_neg hmsg, Nat.add_zero]

/-! ## The invariant -/

structure Outbound (window : UInt32) (log : List Event) : Prop where
  bound : dataSent log + window.toNat ≤ granted log
  exact : WasOpened log → GrantsFit log → dataSent log + window.toNat = granted log
  limits : DataWithinLimits log

/-- Events that say nothing of the outbound data. -/
theorem Outbound.congr {window : UInt32} {log' : List Event} (h : Outbound window log)
    (hgranted : granted log' = granted log) (hsent : dataSent log' = dataSent log)
    (hopened : WasOpened log' = WasOpened log) (hfit : GrantsFit log' = GrantsFit log)
    (hlimits : DataWithinLimits log' = DataWithinLimits log) : Outbound window log' where
  bound := by rw [hgranted, hsent]; exact h.bound
  exact := by rw [hgranted, hsent, hopened, hfit]; exact h.exact
  limits := hlimits ▸ h.limits

/-- A packet that is no `CHANNEL_DATA`. -/
theorem Outbound.sent {p : Bytes} {c : Conn} {window : UInt32} (h : Outbound window log)
    (hmsg : msgOf p ≠ msgChannelData) : Outbound window (.sent p c :: log) := by
  refine h.congr rfl (dataSent_sent hmsg c) rfl rfl (propext ?_)
  exact ⟨And.right, fun hlimits => ⟨fun hdata => absurd hdata hmsg, hlimits⟩⟩

theorem Quiet.outbound (hquiet : Quiet s t) (h : Outbound s.conn.chan.remoteWindow s.log) :
    Outbound t.conn.chan.remoteWindow t.log := by
  obtain ⟨-, -, hwindow, -⟩ := Flow.mk.inj hquiet.flow
  rw [hwindow]
  have hno : ∀ {p : Bytes} {c : Conn}, (Event.sent p c).isQuiet = true →
      msgOf p ≠ msgChannelData := by
    intro p c he hmsg
    rw [Event.isQuiet, hmsg] at he
    exact absurd he (by decide)
  refine h.congr ?_ ?_ ?_ ?_ ?_
  · exact hquiet.log_eq fun e log he => by cases e <;> first | rfl | cases he
  · refine hquiet.log_eq fun e log he => ?_
    cases e with
    | sent p c => exact dataSent_sent (hno he) c
    | _ => first | rfl | cases he
  · exact hquiet.log_eq fun e log he => by cases e <;> first | rfl | cases he
  · exact hquiet.log_eq fun e log he => by cases e <;> first | rfl | cases he
  · refine hquiet.log_eq fun e log he => ?_
    cases e with
    | sent p c =>
        exact propext ⟨And.right, fun hlimits => ⟨fun hdata => absurd hdata (hno he), hlimits⟩⟩
    | _ => rfl

/-- A `WINDOW_ADJUST` from the client. -/
theorem Outbound.adjusted {window : UInt32} (add : UInt32) (h : Outbound window log) :
    Outbound (window + add) (.adjusted add :: log) := by
  have hbound := h.bound
  refine ⟨?_, fun hopened hfit => ?_, h.limits⟩
  · have hwrap : (window + add).toNat ≤ window.toNat + add.toNat := by
      rw [UInt32.toNat_add]
      exact Nat.mod_le _ _
    show dataSent log + _ ≤ granted log + add.toNat
    omega
  · have hexact := h.exact hopened hfit.2
    have hsmall := hfit.1
    show dataSent log + _ = granted log + add.toNat
    rw [UInt32.toNat_add, Nat.mod_eq_of_lt (by omega)]
    omega

/-- A chunk is paid for from the window. -/
theorem Outbound.wrote {window : UInt32} {d : Bytes} {c : Conn} {remoteChan : UInt32}
    (h : Outbound window log) (hwindow : d.length ≤ window.toNat)
    (hc : c.chan.remoteWindow = window)
    (hmax : d.length ≤ min c.chan.remoteMaxPkt.toNat sshDataChunk) :
    Outbound (window - UInt32.ofNat d.length)
      (.sent (channelDataPayload remoteChan d).data c :: log) := by
  have hchunk : d.length ≤ sshDataChunk := hmax.trans (min_le_right _ _)
  have hdata := channelData_channelDataPayload remoteChan hchunk
  have hsent : dataSent (.sent (channelDataPayload remoteChan d).data c :: log) =
      dataSent log + d.length := by
    rw [dataSent, if_pos (msgOf_channelDataPayload _ _), hdata]
  have hsize : (UInt32.ofNat d.length).toNat = d.length :=
    UInt32.toNat_ofNat_of_lt (hchunk.trans_lt (by decide))
  have hleft : (window - UInt32.ofNat d.length).toNat = window.toNat - d.length := by
    rw [UInt32.toNat_sub_of_le _ _ (by rw [UInt32.le_iff_toNat_le, hsize]; exact hwindow), hsize]
  refine ⟨?_, fun hopened hfit => ?_, fun _ => ?_, h.limits⟩
  · have hbound := h.bound
    show _ ≤ granted log
    rw [hsent, hleft]
    omega
  · have hexact := h.exact hopened hfit
    show _ = granted log
    rw [hsent, hleft]
    omega
  · rw [hdata, hc]
    exact ⟨hmax, hwindow⟩

theorem FlowStep.outbound (hstep : FlowStep s t) (h : Outbound s.conn.chan.remoteWindow s.log) :
    Outbound t.conn.chan.remoteWindow t.log := by
  have hfield : ∀ {f : Flow}, t.conn.flow = f → t.conn.chan.remoteWindow = f.remoteWindow := by
    rintro f rfl
    rfl
  cases hstep with
  | quiet hquiet => exact hquiet.outbound h
  | opened window maxPkt _ hflow hlog =>
      rw [hlog, hfield hflow]
      exact ⟨(Nat.zero_add _).le, fun _ _ => Nat.zero_add _, h.limits⟩
  | adjusted add hflow hlog =>
      rw [hlog, hfield hflow]
      exact h.adjusted add
  | wrote d _ hwindow hmax hflow hlog =>
      rw [hlog, hfield hflow]
      exact h.wrote hwindow rfl hmax
  | received _ _ hflow hlog | popped _ _ hflow hlog | readEnd _ hflow hlog =>
      rw [hlog, hfield hflow]
      exact h.congr rfl rfl rfl rfl rfl
  -- what the server credits is the other direction
  | credited max _ hflow hlog =>
      obtain ⟨c, hlog⟩ := hlog
      rw [hlog, hfield hflow]
      have hpopped : Outbound s.conn.chan.remoteWindow
          (.popped (s.conn.inRing.popUpTo max).1 s.conn :: s.log) :=
        h.congr rfl rfl rfl rfl rfl
      exact hpopped.sent (by simp; decide)
  | creditLost _ _ hflow hlog =>
      obtain ⟨p, c, hlog⟩ := hlog
      rw [hlog, hfield hflow]
      exact h.congr rfl rfl rfl rfl rfl
  | answered ok _ _ _ hflow hlog =>
      rw [hlog, hfield hflow]
      exact h.sent (by cases ok <;> simp <;> decide)
  | farewell _ hmsg hflow hlog =>
      rw [hlog, hfield hflow]
      exact h.sent (by rcases hmsg with hmsg | hmsg <;> rw [hmsg] <;> decide)
  | closed _ _ hflow hlog =>
      obtain ⟨p, hmsg, ⟨c, hlog⟩ | ⟨c, hlog⟩⟩ := hlog <;> rw [hlog, hfield hflow]
      · exact h.sent (by rw [hmsg]; decide)
      · exact h.congr rfl rfl rfl rfl rfl

/-! ## What the packets grant -/

/-- The window of the `CHANNEL_OPEN` and the `WINDOW_ADJUST` amounts that have arrived
since. -/
def windowGranted : List Event → ℕ
  | [] => 0
  | .dispatch p _ _ c :: log =>
      match c.openOf p with
      | some (window, _) => window.toNat
      | none => windowGranted log + ((c.adjustOf p).getD 0).toNat
  | _ :: log => windowGranted log

/-- The number of `CHANNEL_DATA` bytes sent since the channel was opened. -/
def windowSpent : List Event → ℕ
  | [] => 0
  | .dispatch p _ _ c :: log => if (c.openOf p).isSome then 0 else windowSpent log
  | .sent p _ :: log =>
      windowSpent log + if msgOf p = msgChannelData then (channelData p).length else 0
  | _ :: log => windowSpent log

/-- The `CHANNEL_OPEN` that opens the channel has arrived. -/
def OpenArrived : List Event → Prop
  | [] => False
  | .dispatch p _ _ c :: log => (c.openOf p).isSome = true ∨ OpenArrived log
  | _ :: log => OpenArrived log

instance decidableOpenArrived : DecidablePred OpenArrived
  | [] => .isFalse id
  | .dispatch p _ _ c :: log =>
      have := decidableOpenArrived log
      inferInstanceAs (Decidable ((c.openOf p).isSome = true ∨ OpenArrived log))
  | .sent .. :: log | .sendFailed .. :: log | .opened .. :: log | .auth .. :: log
  | .adjusted .. :: log | .received .. :: log | .popped .. :: log | .readEnd .. :: log
  | .accepted :: log | .closing .. :: log | .kexInitFailed :: log
  | .versionSent _ :: log | .exchange .. :: log => decidableOpenArrived log

/-- Since the channel was opened, no `WINDOW_ADJUST` has taken the outstanding grant beyond
32 bits. -/
def GrantsKept : List Event → Prop
  | [] => True
  | .dispatch p _ _ c :: log => (c.openOf p).isSome = true ∨
      (∀ add ∈ c.adjustOf p, windowGranted log + add.toNat ≤ windowSpent log + (2 ^ 32 - 1)) ∧
        GrantsKept log
  | _ :: log => GrantsKept log

instance decidableGrantsKept : DecidablePred GrantsKept
  | [] => .isTrue trivial
  | .dispatch p _ _ c :: log =>
      have := decidableGrantsKept log
      -- one amount at most, where an instance for `UInt32` would try them all
      have : Decidable (∀ add ∈ c.adjustOf p,
          windowGranted log + add.toNat ≤ windowSpent log + (2 ^ 32 - 1)) :=
        Option.decidableForallMem (c.adjustOf p)
      inferInstanceAs (Decidable ((c.openOf p).isSome = true ∨ (∀ add ∈ c.adjustOf p,
        windowGranted log + add.toNat ≤ windowSpent log + (2 ^ 32 - 1)) ∧ GrantsKept log))
  | .sent .. :: log | .sendFailed .. :: log | .opened .. :: log | .auth .. :: log
  | .adjusted .. :: log | .received .. :: log | .popped .. :: log | .readEnd .. :: log
  | .accepted :: log | .closing .. :: log | .kexInitFailed :: log
  | .versionSent _ :: log | .exchange .. :: log => decidableGrantsKept log

section Retell

variable (log)

theorem dataSent_retell : dataSent (retell log) = windowSpent log := by
  induction log with
  | nil => rfl
  | cons e log ih =>
      cases e with
      | dispatch p packet mac c =>
          obtain ⟨_, -, -, hopen, h⟩ | ⟨_, -, -, hopen, h⟩ | ⟨_, _, -, -, hopen, h⟩ |
            ⟨-, -, hopen, h⟩ := c.bringing p <;> rw [retell, h, windowSpent, hopen]
          · exact ih
          · exact ih
          · rfl
          · exact ih
      | sent p c => rw [retell_aside rfl, dataSent, windowSpent, ih]
      | _ => exact ih

theorem granted_retell : granted (retell log) = windowGranted log := by
  induction log with
  | nil => rfl
  | cons e log ih =>
      cases e with
      | dispatch p packet mac c =>
          obtain ⟨_, -, hadjust, hopen, h⟩ | ⟨add, -, hadjust, hopen, h⟩ | ⟨_, _, -, -, hopen, h⟩ |
              ⟨-, hadjust, hopen, h⟩ := c.bringing p
          · simpa [retell, h, windowGranted, granted, hopen, hadjust] using ih
          · simpa [retell, h, windowGranted, granted, hopen, hadjust] using ih
          · simp [retell, h, windowGranted, granted, hopen]
          · simpa [retell, h, windowGranted, granted, hopen, hadjust] using ih
      | _ => exact ih

theorem wasOpened_retell : WasOpened (retell log) ↔ OpenArrived log := by
  induction log with
  | nil => exact Iff.rfl
  | cons e log ih =>
      cases e with
      | dispatch p packet mac c =>
          obtain ⟨_, -, -, hopen, h⟩ | ⟨_, -, -, hopen, h⟩ | ⟨_, _, -, -, hopen, h⟩ |
            ⟨-, -, hopen, h⟩ := c.bringing p <;> simp [retell, h, OpenArrived, WasOpened, hopen, ih]
      | _ => exact ih

theorem grantsFit_retell : GrantsFit (retell log) ↔ GrantsKept log := by
  induction log with
  | nil => exact Iff.rfl
  | cons e log ih =>
      cases e with
      | dispatch p packet mac c =>
          obtain ⟨_, -, hadjust, hopen, h⟩ | ⟨add, -, hadjust, hopen, h⟩ | ⟨_, _, -, -, hopen, h⟩ |
              ⟨-, hadjust, hopen, h⟩ := c.bringing p
          · simpa [retell, h, GrantsKept, GrantsFit, hopen, hadjust] using ih
          · rw [retell, h, GrantsKept, hopen, hadjust, ← ih, ← granted_retell, ← dataSent_retell]
            simp [GrantsFit, granted, dataSent]
          · simp [retell, h, GrantsKept, GrantsFit, hopen]
          · simpa [retell, h, GrantsKept, GrantsFit, hopen, hadjust] using ih
      | _ => exact ih

end Retell

/-! ## The result -/

theorem Reachable.outbound {s : Server} (h : Reachable E s) :
    Outbound s.link.conn.chan.remoteWindow s.link.log :=
  h.flow_invariant (I := fun s => Outbound s.conn.chan.remoteWindow s.log)
    (fun _ _ => ⟨Nat.le_refl _, fun hopened => hopened.elim, trivial⟩)
    (fun _ _ hstep => hstep.outbound)

/-- The server sends no more data than the client's packets granted, each packet within the
client's limits, and its window counter is exact while the outstanding grant fits into
32 bits. -/
theorem outbound_flow_control {s : Server} (h : Reachable E s) (hopened : OpenArrived s.link.log) :
    windowSpent s.link.log ≤ windowGranted s.link.log ∧ DataWithinLimits s.link.log ∧
      (GrantsKept s.link.log → s.link.conn.chan.remoteWindow.toNat =
        windowGranted s.link.log - windowSpent s.link.log) := by
  have houtbound := h.outbound
  have hretell := h.retell_eq
  have hspent : dataSent s.link.log = windowSpent s.link.log := by
    rw [← dataSent_retell, hretell]
  have hgranted : granted s.link.log = windowGranted s.link.log := by
    rw [← granted_retell, hretell]
  rw [← hspent, ← hgranted]
  refine ⟨?_, houtbound.limits, fun hkept => ?_⟩
  · have hbound := houtbound.bound
    omega
  · have hexact := houtbound.exact (by rwa [← hretell, wasOpened_retell])
      (by rwa [← hretell, grantsFit_retell])
    omega

/-- A client that grants 1000 bytes, is sent five and grants ten more. -/
theorem outbound_flow_control_write : ∃ s, Reachable (plainEnv fun _ _ => true) s ∧
    windowSpent s.link.log = 5 ∧ windowGranted s.link.log = 1010 ∧
    windowSpent s.link.log ≤ windowGranted s.link.log ∧ DataWithinLimits s.link.log ∧
    s.link.conn.chan.remoteWindow = 1005 := by
  obtain ⟨s, hreach, hopened, hkept, hspent, hgranted⟩ :=
    exists_reachable (E := plainEnv fun _ _ => true)
      (P := fun s => OpenArrived s.link.log ∧ GrantsKept s.link.log ∧
        windowSpent s.link.log = 5 ∧ windowGranted s.link.log = 1010)
      [.poll, .write 3 (ascii "hello"), .poll]
      [.data (clientLogin "root" "secret"), .data [],
        .data (sealedFrame (windowAdjustPayload 0 10))] (by decide +kernel)
  obtain ⟨hbound, hlimits, hexact⟩ := outbound_flow_control hreach hopened
  have hwindow := hexact hkept
  rw [hspent, hgranted] at hwindow
  exact ⟨s, hreach, hspent, hgranted, hbound, hlimits, UInt32.toNat_inj.mp hwindow⟩

end EfiSshServer
