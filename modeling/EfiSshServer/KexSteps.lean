import EfiSshServer.Lib.History
import EfiSshServer.Step

/-!
# Steps, seen from the key exchange

Most steps leave the key exchange alone.  `Aside` is what they have in common: they keep
the keys in use, the keys that wait and everything the next exchange is made of, and they
record neither an exchange nor one of its messages.  `KexStep` lists the steps that are
left, so that an invariant about key exchanges takes one lemma for `Aside` and one for each
of the others.
-/

namespace EfiSshServer

open History

variable {E : Env} {p q : Bytes} {r : Int} {s t u : Session} {c c' : Conn} {e : Event}

/-! ## What is recorded beside an exchange -/

/-- The messages of a key exchange that the server sends. -/
def kexMessages : List UInt8 := [msgKexinit, msgKexdhReply, msgNewkeys]

/-- No exchange and none of its messages, recorded while the connection was `c`; of a
version line it says which it is. -/
def Event.IsAside (c : Conn) : Event → Prop
  | .exchange .. => False
  | .sent p c' => msgOf p ∉ kexMessages ∧ c'.outDir.keys = c.outDir.keys ∧ c.state ≠ .closed
  | .dispatch p _ _ c' =>
      (msgOf p ≠ msgKexinit ∧ msgOf p ≠ msgNewkeys) ∧ c'.inDir.keys = c.inDir.keys ∧
        c.state ≠ .closed
  | .versionSent line => line = ascii sshServerVersion ++ [cr, lf]
  | _ => True

/-- The connection has closed, or it is open and in the version exchange as before. -/
def SameStage (c c' : Conn) : Prop :=
  c'.state = .closed ∨ (c.state ≠ .closed ∧ (c'.state = .version ↔ c.state = .version))

namespace SameStage

theorem of_state (h : c'.state = c.state ∨ c'.state = .closed) : SameStage c c' := by
  by_cases hclosed : c'.state = .closed
  · exact .inl hclosed
  · have heq := h.resolve_right hclosed
    unfold SameStage
    rw [heq] at hclosed ⊢
    exact .inr ⟨hclosed, .rfl⟩

theorem trans {c'' : Conn} (h : SameStage c c') (h' : SameStage c' c'') : SameStage c c'' := by
  refine h'.imp_right fun ⟨hopen, hversion⟩ => ?_
  obtain ⟨hopen₀, hversion₀⟩ := h.resolve_left hopen
  exact ⟨hopen₀, hversion.trans hversion₀⟩

theorem ne_closed (h : SameStage c c') (hopen : c'.state ≠ .closed) : c.state ≠ .closed :=
  (h.resolve_left hopen).1

theorem version (h : SameStage c c') (hversion : c'.state = .version) : c.state = .version := by
  rcases h with hclosed | ⟨-, hiff⟩
  · exact absurd (hclosed.symm.trans hversion) (by decide)
  · exact hiff.mp hversion

end SameStage

theorem Conn.sameStage_installed (c : Conn) : SameStage c c.installed := by
  by_cases hkex : c.state = .kex
  · refine .inr ⟨?_, ?_⟩
    · rw [hkex]
      decide
    · simp [Conn.installed, hkex]
  · exact .of_state (.inl (if_neg hkex))

/-- The exchange is left alone. -/
structure Aside (s t : Session) : Prop where
  state : SameStage s.conn t.conn
  kex : t.conn.kex = s.conn.kex
  kx : ∃ ignore, t.conn.kx = { s.conn.kx with ignoreNextKexPacket := ignore }
  outKeys : t.conn.outDir.keys = s.conn.outDir.keys
  inKeys : t.conn.inDir.keys = s.conn.inDir.keys
  pend : t.conn.pend = s.conn.pend
  clientVersion : t.conn.clientVersion = s.conn.clientVersion
  log : ∃ es, t.log = es ++ s.log ∧ ∀ e ∈ es, e.IsAside s.conn

theorem Event.IsAside.of_aside (h : Aside s t) (he : e.IsAside t.conn) : e.IsAside s.conn := by
  cases e with
  | exchange => exact he
  | sent p c => exact ⟨he.1, he.2.1.trans h.outKeys, h.state.ne_closed he.2.2⟩
  | dispatch p packet mac c => exact ⟨he.1, he.2.1.trans h.inKeys, h.state.ne_closed he.2.2⟩
  | _ => trivial

theorem Aside.trans (h : Aside s t) (h' : Aside t u) : Aside s u where
  state := h.state.trans h'.state
  kex := h'.kex.trans h.kex
  kx := by
    obtain ⟨ignore, hkx⟩ := h.kx
    obtain ⟨ignore', hkx'⟩ := h'.kx
    exact ⟨ignore', by rw [hkx', hkx]⟩
  outKeys := h'.outKeys.trans h.outKeys
  inKeys := h'.inKeys.trans h.inKeys
  pend := h'.pend.trans h.pend
  clientVersion := h'.clientVersion.trans h.clientVersion
  log := by
    obtain ⟨es, hes, haside⟩ := h.log
    obtain ⟨es', hes', haside'⟩ := h'.log
    refine ⟨es' ++ es, by rw [hes', hes, List.append_assoc], fun e he => ?_⟩
    exact (List.mem_append.mp he).elim (fun he => (haside' e he).of_aside h) (haside e)

/-- Changes elsewhere in the connection, and an event that belongs to them. -/
theorem Aside.cons (hlog : t.log = e :: s.log) (he : e.IsAside s.conn)
    (hstate : t.conn.state = s.conn.state) (hkex : t.conn.kex = s.conn.kex)
    (hkx : t.conn.kx = s.conn.kx) (hout : t.conn.outDir.keys = s.conn.outDir.keys)
    (hin : t.conn.inDir.keys = s.conn.inDir.keys) (hpend : t.conn.pend = s.conn.pend)
    (hversion : t.conn.clientVersion = s.conn.clientVersion) : Aside s t :=
  ⟨.of_state (.inl hstate), hkex, ⟨_, hkx⟩, hout, hin, hpend, hversion, [e], hlog,
    by simpa using he⟩

/-- Changes elsewhere in the connection. -/
theorem Aside.of_eq (hlog : t.log = s.log) (hstate : t.conn.state = s.conn.state)
    (hkex : t.conn.kex = s.conn.kex) (hkx : t.conn.kx = s.conn.kx)
    (hout : t.conn.outDir.keys = s.conn.outDir.keys)
    (hin : t.conn.inDir.keys = s.conn.inDir.keys) (hpend : t.conn.pend = s.conn.pend)
    (hversion : t.conn.clientVersion = s.conn.clientVersion) : Aside s t :=
  ⟨.of_state (.inl hstate), hkex, ⟨_, hkx⟩, hout, hin, hpend, hversion, [], hlog, by simp⟩

/-- Sends of other messages. -/
theorem Sends.aside {P : UInt8 → Prop} (h : Sends P s t) (hP : ∀ m, P m → m ∉ kexMessages) :
    Aside s t := by
  obtain ⟨es, hes, hsend⟩ := h.log
  refine ⟨.of_state h.frame.state, h.frame.kex, ⟨_, h.frame.kx⟩, h.frame.outKeys,
    by rw [h.frame.inDir], h.frame.pend, h.frame.clientVersion, es, hes, fun e he => ?_⟩
  obtain ⟨hside, hmsg⟩ := hsend e he
  cases e with
  | sent p c =>
      obtain ⟨hp, hkeys, hopen⟩ := hmsg p c rfl
      exact ⟨hP _ hp, hkeys, hopen⟩
  | sendFailed | kexInitFailed | closing => trivial
  | _ => cases hside

theorem Emits.aside (h : Emits p s r t) (hmsg : msgOf p ∉ kexMessages) : Aside s t :=
  h.sends.aside fun _ hm => hm ▸ hmsg

theorem Farewell.aside (h : Farewell s t) : Aside s t :=
  h.sends.aside (by rintro _ rfl; decide)

/-! ## The steps -/

/-- A step is aside, or it is one of the steps of the version and key exchange. -/
inductive KexStep (E : Env) (s : Session) : Session → Prop
  | aside {t : Session} (h : Aside s t) : KexStep E s t
  | acceptVersion (line : Bytes) (hstate : s.conn.state = .version)
      (hfits : line.length + 1 ≤ clientVersionSize) (hssh : isSshLine line = true) : KexStep E s
      ⟨{ s.conn with clientVersion := line, state := .kex, kex := .waitKexinit }, s.log⟩
  | firstKexInit {t : Session} (hstate : s.conn.state = .kex) (hkex : s.conn.kex = .waitKexinit)
      (hnew : s.conn.kx.kexInitSent = false) (h : KexInitDone s t) : KexStep E s t
  | firstKexInitFailed {t : Session} (hkex : s.conn.kex = .waitKexinit)
      (hnew : s.conn.kx.kexInitSent = false) (h : KexInitFails E s t) : KexStep E s t
  | kexInit {q packet mac : Bytes} {t : Session} (h : Arrives E s q packet mac)
      (hmsg : msgOf q = msgKexinit) (hend : HandlesKexInit E q (s.dispatched q packet mac) t) :
      KexStep E s t
  | exchange {q : Bytes} {t : Session} (x : Transcript) (hx : Exchanges E s q x)
      (hend : ExchangeEnds E x (s.conn.kx.sessionId.getD (x.hash E)) (s.exchanged E x) t) :
      KexStep E s t
  | newKeys {q packet mac : Bytes} {t : Session} (h : Arrives E s q packet mac)
      (hmsg : msgOf q = msgNewkeys) (hend : HandlesNewKeys (s.dispatched q packet mac) t) :
      KexStep E s t

theorem Aside.dispatched {packet mac : Bytes} (h : Arrives E s p packet mac)
    (hother : msgOf p ≠ msgKexinit ∧ msgOf p ≠ msgNewkeys) :
    Aside s (s.dispatched p packet mac) :=
  .cons rfl ⟨hother, rfl, h.ne_closed⟩ rfl rfl rfl rfl rfl rfl rfl

theorem Aside.withFlag (h : Aside s t) (ignore : Bool) :
    Aside s (t.withKx { t.conn.kx with ignoreNextKexPacket := ignore }) where
  state := h.state
  kex := h.kex
  kx := by
    obtain ⟨_, hkx⟩ := h.kx
    refine ⟨ignore, ?_⟩
    rw [show (t.withKx { t.conn.kx with ignoreNextKexPacket := ignore }).conn.kx =
      { t.conn.kx with ignoreNextKexPacket := ignore } from rfl, hkx]
  outKeys := h.outKeys
  inKeys := h.inKeys
  pend := h.pend
  clientVersion := h.clientVersion
  log := h.log

theorem not_mem_kexMessages_of_mem {m : UInt8} (h : m ∈ replyMessages) : m ∉ kexMessages := by
  revert m
  decide +kernel

/-- A packet that is skipped is one of the key exchange method. -/
theorem Conn.discards_other (h : c.discards p = true) :
    msgOf p ≠ msgKexinit ∧ msgOf p ≠ msgNewkeys := by
  obtain ⟨-, hlow, -⟩ := Conn.discards_iff.mp h
  constructor
  · rintro heq
    rw [heq] at hlow
    exact absurd hlow (by decide)
  · rintro heq
    rw [heq] at hlow
    exact absurd hlow (by decide)

theorem Step.kexStep (h : Step E s t) : KexStep E s t := by
  cases h with
  | acceptVersion line hstate hfits hssh => exact .acceptVersion line hstate hfits hssh
  | firstKexInit hstate hkex hnew h => exact .firstKexInit hstate hkex hnew h
  | firstKexInitFailed hkex hnew h => exact .firstKexInitFailed hkex hnew h
  | kexInit h hmsg hend => exact .kexInit h hmsg hend
  | exchange x hx hend => exact .exchange x hx hend
  | newKeys h hmsg hend => exact .newKeys h hmsg hend
  | dispatch p packet mac h hother => exact .aside (.dispatched h hother)
  | skipGuess h hskip =>
      exact .aside ((Aside.dispatched h (Conn.discards_other hskip)).withFlag false)
  | close => exact .aside ⟨.inl rfl, rfl, ⟨_, rfl⟩, rfl, rfl, rfl, rfl, [], rfl, by simp⟩
  | disconnect h => exact .aside h.aside
  | reply _ hp h => exact .aside (h.aside (not_mem_kexMessages_of_mem hp.msg_mem))
  | writeLost _ _ h => exact .aside (h.aside (by simp; decide))
  | authAccepted _ _ hstate _ h =>
      refine .aside (Aside.trans ?_ (h.aside (by simp; decide)))
      refine ⟨.inr ?_, rfl, ⟨_, rfl⟩, rfl, rfl, rfl, rfl, [_], rfl, by simp [Event.IsAside]⟩
      rw [hstate]
      simp
  | authRejected _ _ _ _ _ h | openChannel _ _ _ _ _ _ _ _ h =>
      refine .aside (Aside.trans ?_ (h.aside (by simp; decide)))
      exact .cons rfl trivial rfl rfl rfl rfl rfl rfl rfl
  | authExhausted _ _ h =>
      refine .aside (Aside.trans ?_ h.aside)
      exact .cons rfl trivial rfl rfl rfl rfl rfl rfl rfl
  | closeReply _ _ _ _ h =>
      refine .aside (Aside.trans ?_ (h.aside (by simp; decide)))
      exact .of_eq rfl rfl rfl rfl rfl rfl rfl rfl
  | writeData _ _ _ _ _ h =>
      refine .aside (Aside.trans (h.aside (by simp; decide)) ?_)
      exact .of_eq rfl rfl rfl rfl rfl rfl rfl rfl
  | startClose _ _ _ _ h =>
      obtain ⟨u, hsends, rfl⟩ := h.sends
      refine .aside (Aside.trans (hsends.aside (by decide +kernel)) ?_)
      exact .of_eq rfl rfl rfl rfl rfl rfl rfl rfl
  | read max _ hcredit =>
      obtain ⟨u, consumed, hsends, rfl⟩ := hcredit.sends
      have hpopped : Aside s (s.popped max) := .cons rfl trivial rfl rfl rfl rfl rfl rfl rfl
      refine .aside ((hpopped.trans (hsends.aside (by rintro _ rfl; decide))).trans ?_)
      exact .of_eq rfl rfl rfl rfl rfl rfl rfl rfl
  | versionSent => exact .aside (.cons rfl rfl rfl rfl rfl rfl rfl rfl rfl)
  | adjust | readEnd | data | accepted =>
      exact .aside (.cons rfl trivial rfl rfl rfl rfl rfl rfl rfl)
  | _ => exact .aside (.of_eq rfl rfl rfl rfl rfl rfl rfl rfl)

/-! ## `clientVersion` -/

/-- It is written once, at the end of the version exchange. -/
theorem Step.clientVersion (h : Step E s t) (hs : s.conn.state ≠ .version) :
    t.conn.clientVersion = s.conn.clientVersion := by
  have hsends : ∀ {P : UInt8 → Prop} (u v : Session), Sends P u v →
      u.conn.clientVersion = s.conn.clientVersion → v.conn.clientVersion = s.conn.clientVersion :=
    fun _ _ h hu => h.frame.clientVersion.trans hu
  cases h.kexStep with
  | aside h => exact h.clientVersion
  | acceptVersion _ hstate => exact absurd hstate hs
  | firstKexInit _ _ _ h =>
      exact h.keeps (I := fun u => u.conn.clientVersion = s.conn.clientVersion)
        (fun _ _ hu => hu) hsends rfl
  | firstKexInitFailed _ _ h =>
      exact h.keeps (I := fun u => u.conn.clientVersion = s.conn.clientVersion)
        (fun _ _ hu => hu) hsends rfl
  | kexInit _ _ hend =>
      exact hend.keeps (I := fun u => u.conn.clientVersion = s.conn.clientVersion)
        (fun _ _ hu => hu) hsends (fun _ _ hu => hu) rfl
  | exchange _ _ hend =>
      exact hend.keeps (I := fun u => u.conn.clientVersion = s.conn.clientVersion)
        hsends (fun _ _ _ hu => hu) rfl
  | newKeys _ _ hend =>
      exact hend.keeps (I := fun u => u.conn.clientVersion = s.conn.clientVersion)
        hsends (fun _ hu => hu) rfl

end EfiSshServer
