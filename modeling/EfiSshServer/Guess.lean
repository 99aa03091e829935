import EfiSshServer.Lib.History
import EfiSshServer.Negotiation

/-!
# The guessed key exchange packet

A client may send its first key exchange packet along with its `KEXINIT`.  The server
has to discard that packet if the guess behind it was wrong: if the first name of the
client's kex list or of its host key list is not the first name of the server's.

`Negotiate` compares with the algorithm it has picked instead of the server's first
name.  The two differ for a client that prefers the second name of `KEX_ALGS`, and
`Misjudged` are those clients.  `guessed_packet_iff` says that for all others exactly the
right packet is discarded: `awaited` reads off the history which `KEXINIT` the next key
exchange packet is for, and `GuessKept` is the invariant that the flag belongs to it.
-/

namespace EfiSshServer

open History

variable {E : Env} {c : Conn} {p q client list pick : Bytes} {r : Int} {s t : Session}

/-! ## Right and wrong guesses -/

/-- The first entry of a name-list. -/
def firstName (list : Bytes) : Option Bytes := (names list).head?

theorem firstName_eq (h : list ≠ []) : firstName list = some (list.take (firstEntryLen list)) := by
  rw [firstName, names_of_ne_nil h]
  rcases entry_cases list with hnot | ⟨entry, rest, rfl, hnot⟩
  · rw [firstEntryLen_of_not_mem hnot, List.splitOn_eq_singleton hnot, List.take_length]
    rfl
  · rw [firstEntryLen_append hnot, List.splitOn_append_cons_self_of_not_mem hnot, List.take_left]
    rfl

/-- The test of `Negotiate` compares the first entry with the pick. -/
theorem firstEntry_ne_iff :
    (firstEntryLen list ≠ pick.length ∨ list.take pick.length ≠ pick) ↔
      list.take (firstEntryLen list) ≠ pick := by
  have hlength : (list.take (firstEntryLen list)).length = firstEntryLen list :=
    List.length_take_of_le (List.takeWhile_prefix _).length_le
  rw [← not_and_or]
  refine not_congr ⟨fun ⟨hlen, htake⟩ => by rw [hlen, htake], fun h => ?_⟩
  have hlen : firstEntryLen list = pick.length := by rw [← h, hlength]
  exact ⟨hlen, by rw [← hlen, h]⟩

/-- The first common name is the client's first name if the server has that one. -/
theorem firstCommon_eq_firstName {ours : String} {name : Bytes} (h : firstName client = some name)
    (hours : name ∈ names (ascii ours)) : firstCommon client ours = some name := by
  obtain ⟨rest, hrest⟩ := List.head?_eq_some_iff.mp h
  rw [firstCommon, hrest, List.find?_cons_of_pos (by simpa using hours)]

namespace ClientKexInit

/-- A key exchange packet follows, and the guess behind it is wrong: one of the lists
does not start as the server's does. -/
def GuessesWrong (f : ClientKexInit) : Prop :=
  f.firstFollows ≠ 0 ∧ (firstName f.kex ≠ firstName (ascii kexAlgs) ∨
    firstName f.hk ≠ firstName (ascii hostkeyAlgs))

/-- The client guessed the second name of `KEX_ALGS`. -/
def Misjudged (f : ClientKexInit) : Prop :=
  f.firstFollows ≠ 0 ∧ firstName f.kex = some (ascii "curve25519-sha256@libssh.org") ∧
    firstName f.hk = some (ascii "ssh-ed25519")

theorem firstName_kexAlgs : firstName (ascii kexAlgs) = some (ascii "curve25519-sha256") := by
  decide

theorem firstName_hostkeyAlgs : firstName (ascii hostkeyAlgs) = some (ascii "ssh-ed25519") := by
  decide

theorem Agrees.ne_nil {f : ClientKexInit} (h : f.Agrees) : f.kex ≠ [] ∧ f.hk ≠ [] := by
  have hne : ∀ {list : Bytes} {ours : String}, Shares list ours → list ≠ [] := by
    rintro list ours ⟨n, hn, -⟩ rfl
    cases hn
  exact ⟨hne h.kex, hne h.hk⟩

theorem wrongGuess_iff {f : ClientKexInit} (h : f.Agrees) : wrongGuess f.fields pick = true ↔
    firstName f.kex ≠ some pick ∨ firstName f.hk ≠ some (ascii "ssh-ed25519") := by
  obtain ⟨hkex, hhk⟩ := h.ne_nil
  rw [firstName_eq hkex, firstName_eq hhk, ne_eq, ne_eq, Option.some_inj, Option.some_inj,
    ← ne_eq, ← firstEntry_ne_iff, wrongGuess, Bool.or_eq_true, Bool.or_eq_true,
    decide_eq_true_iff, decide_eq_true_iff, nameIs, Bool.not_eq_true', decide_eq_false_iff_not]
  rfl

/-- The flag that `Negotiate` sets is the right one except for the misjudged guesses. -/
theorem flag_iff {f : ClientKexInit} (h : f.Agrees)
    (hpick : firstCommon f.kex kexAlgs = some pick) :
    ((f.firstFollows ≠ 0 ∧ wrongGuess f.fields pick = true) ↔ f.GuessesWrong) ↔
      ¬ f.Misjudged := by
  rw [wrongGuess_iff h, GuessesWrong, Misjudged, firstName_kexAlgs, firstName_hostkeyAlgs]
  have hserver : names (ascii kexAlgs) =
      [ascii "curve25519-sha256", ascii "curve25519-sha256@libssh.org"] := by decide
  have hpicked : ∀ name, firstName f.kex = some name → name ∈ names (ascii kexAlgs) →
      pick = name := fun name hname hmem =>
    Option.some.inj (hpick.symm.trans (firstCommon_eq_firstName hname hmem))
  have hmem := mem_of_firstCommon hpick
  by_cases hfollows : f.firstFollows = 0
  · simp [hfollows]
  by_cases hhk : firstName f.hk = some (ascii "ssh-ed25519")
  swap
  · simp [hfollows, hhk]
  by_cases hfirst : firstName f.kex = some (ascii "curve25519-sha256")
  · rw [hpicked _ hfirst (by rw [hserver]; simp), hfirst]
    simp [hfollows, hhk]
    decide
  by_cases hsecond : firstName f.kex = some (ascii "curve25519-sha256@libssh.org")
  · rw [hpicked _ hsecond (by rw [hserver]; simp), hsecond]
    simp [hfollows, hhk]
    decide
  · -- the first name is not the server's, so it is not the pick
    have hother : firstName f.kex ≠ some pick := by
      intro heq
      rw [hserver, List.mem_cons, List.mem_singleton] at hmem
      rcases hmem with rfl | rfl
      · exact hfirst heq
      · exact hsecond heq
    simp [hfollows, hhk, hfirst, hsecond, hother]

end ClientKexInit

/-! ## The packet behind a `KEXINIT` -/

/-- A packet of the key exchange method. -/
def isKexMethod (p : Bytes) : Prop := 30 ≤ msgOf p ∧ msgOf p ≤ 49

instance (p : Bytes) : Decidable (isKexMethod p) := inferInstanceAs (Decidable (_ ∧ _))

/-- The newest `KEXINIT` of the history, unless a packet of the key exchange method has
come behind it. -/
def awaited : List Event → Option Bytes
  | [] => none
  | .dispatch p _ _ _ :: log =>
      if msgOf p = msgKexinit then some p else if isKexMethod p then none else awaited log
  | _ :: log => awaited log

theorem awaited_kexInit {packet mac : Bytes} {log : List Event} (hmsg : msgOf p = msgKexinit) :
    awaited (.dispatch p packet mac c :: log) = some p := if_pos hmsg

theorem awaited_kexMethod {packet mac : Bytes} {log : List Event} (hp : isKexMethod p) :
    awaited (.dispatch p packet mac c :: log) = none := by
  have hmsg : msgOf p ≠ msgKexinit := by
    intro h
    rw [isKexMethod, h] at hp
    exact absurd hp.1 (by decide)
  rw [awaited, if_neg hmsg, if_pos hp]

theorem awaited_other {packet mac : Bytes} {log : List Event} (hmsg : msgOf p ≠ msgKexinit)
    (hp : ¬ isKexMethod p) : awaited (.dispatch p packet mac c :: log) = awaited log := by
  rw [awaited, if_neg hmsg, if_neg hp]

theorem awaited_append {es log : List Event}
    (hes : ∀ e ∈ es, ∀ payload packet mac c, e ≠ .dispatch payload packet mac c) :
    awaited (es ++ log) = awaited log := by
  induction es with
  | nil => rfl
  | cons e es ih =>
      rw [← ih fun e he => hes e (List.mem_cons_of_mem _ he)]
      cases e with
      | dispatch payload packet mac c =>
          exact absurd rfl (hes _ List.mem_cons_self payload packet mac c)
      | _ => rfl

/-- The flag is the one that `Negotiate` set for the awaited packet, and it is clear when
there is none to await. -/
structure FlagFits (c : Conn) (log : List Event) : Prop where
  chosen : c.kex = .waitDh → ∀ q, awaited log = some q → Chosen q c.kx
  clear : c.kex ≠ .waitDh ∨ awaited log = none → c.kx.ignoreNextKexPacket = false

/-- The flag fitted when this packet was dispatched. -/
def DispatchFits (e : Event) (older : List Event) : Prop :=
  ∀ payload packet mac c, e = .dispatch payload packet mac c → FlagFits c older

structure GuessKept (s : Session) : Prop where
  now : s.conn.state ≠ .closed → FlagFits s.conn s.log
  version : s.conn.state = .version → s.conn.kex ≠ .waitDh
  past : Along DispatchFits s.log

theorem guessKept_new (hostSeed hostPub : Bytes) : GuessKept ⟨newConn hostSeed hostPub, []⟩ where
  now _ := ⟨nofun, fun _ => rfl⟩
  version _ := nofun
  past := trivial

/-- Events other than a dispatch, and changes elsewhere in the connection. -/
theorem GuessKept.congr (h : GuessKept s)
    (hopen : t.conn.state ≠ .closed → s.conn.state ≠ .closed)
    (hversion : t.conn.state = .version → s.conn.state = .version)
    (hkex : t.conn.kex = s.conn.kex) (hkx : t.conn.kx = s.conn.kx)
    (hlog : ∃ es, t.log = es ++ s.log ∧
      ∀ e ∈ es, ∀ payload packet mac c, e ≠ .dispatch payload packet mac c) : GuessKept t := by
  obtain ⟨es, hes, hother⟩ := hlog
  refine ⟨fun hclosed => ?_, fun hv => ?_, ?_⟩
  · obtain ⟨hchosen, hclear⟩ := h.now (hopen hclosed)
    refine ⟨?_, ?_⟩
    · rw [hkex, hkx, hes, awaited_append hother]
      exact hchosen
    · rw [hkex, hkx, hes, awaited_append hother]
      exact hclear
  · rw [hkex]
    exact h.version (hversion hv)
  · rw [hes]
    refine h.past.append fun e newer older heq payload packet mac c he => ?_
    have hmem := heq ▸ List.mem_append_right newer List.mem_cons_self
    exact absurd he (hother e hmem payload packet mac c)

theorem GuessKept.sends {P : UInt8 → Prop} (h : Sends P s t) (hs : GuessKept s) : GuessKept t := by
  obtain ⟨es, hes, hsend⟩ := h.log
  refine hs.congr (fun hopen => ?_) (fun hversion => ?_) h.frame.kex h.frame.kx ⟨es, hes, ?_⟩
  · rwa [← h.frame.state.resolve_right hopen]
  · rw [← h.frame.state.resolve_right (by rw [hversion]; decide)]
    exact hversion
  · rintro e he payload packet mac c rfl
    exact absurd (hsend _ he).1 (by simp [Event.isSend])

theorem GuessKept.of_closed (hclosed : t.conn.state = .closed) (hpast : Along DispatchFits t.log) :
    GuessKept t where
  now hopen := absurd hclosed hopen
  version hversion := by
    rw [hclosed] at hversion
    cases hversion
  past := hpast

theorem Farewell.guessKept (h : Farewell s t) (hpast : Along DispatchFits s.log) : GuessKept t := by
  refine .of_closed h.closed ?_
  obtain ⟨es, hes, hsend⟩ := h.sends.log
  rw [hes]
  refine hpast.append fun e newer older heq payload packet mac c he => ?_
  have hmem := (hsend e (heq ▸ List.mem_append_right _ List.mem_cons_self)).1
  rw [he] at hmem
  cases hmem

/-- The packet arrived while the flag fitted. -/
theorem GuessKept.arrived (hs : GuessKept s) {packet mac : Bytes} (h : Arrives E s p packet mac) :
    Along DispatchFits (s.dispatched p packet mac).log := by
  refine ⟨?_, hs.past⟩
  rintro payload packet' mac' c ⟨⟩
  exact hs.now h.ne_closed

/-- A packet that is not skipped finds the flag clear, or is none of the key exchange
method. -/
theorem GuessKept.dispatched (hs : GuessKept s) {packet mac : Bytes}
    (h : Arrives E s p packet mac) (hmsg : msgOf p ≠ msgKexinit)
    (hkeep : s.conn.discards p = false) : GuessKept (s.dispatched p packet mac) := by
  obtain ⟨hchosen, hclear⟩ := hs.now h.ne_closed
  refine ⟨fun _ => ?_, hs.version, hs.arrived h⟩
  by_cases hp : isKexMethod p
  · have hflag : s.conn.kx.ignoreNextKexPacket = false := by
      rw [← Bool.not_eq_true] at hkeep ⊢
      exact fun hflag => hkeep (Conn.discards_iff.mpr ⟨hflag, hp⟩)
    refine ⟨fun _ q hq => ?_, fun _ => hflag⟩
    rw [Session.dispatched, awaited_kexMethod hp] at hq
    cases hq
  · refine ⟨?_, ?_⟩
    · rw [Session.dispatched, awaited_other hmsg hp]
      exact hchosen
    · rw [Session.dispatched, awaited_other hmsg hp]
      exact hclear

theorem GuessKept.skipped (hs : GuessKept s) {packet mac : Bytes} (h : Arrives E s p packet mac)
    (hskip : s.conn.discards p = true) : GuessKept ((s.dispatched p packet mac).withKx
      { s.conn.kx with ignoreNextKexPacket := false }) := by
  refine ⟨fun _ => ⟨fun _ q hq => ?_, fun _ => rfl⟩, hs.version, hs.arrived h⟩
  rw [Session.withKx, Session.dispatched, awaited_kexMethod (Conn.discards_iff.mp hskip).2] at hq
  cases hq

/-- The server's own `KEXINIT` does not matter. -/
theorem GuessKept.withServer (hs : GuessKept s) (server : Option Bytes) (sent : Bool) :
    GuessKept (s.withKx { s.conn.kx with serverKexInit := server, kexInitSent := sent }) := by
  refine ⟨fun hopen => ?_, hs.version, hs.past⟩
  obtain ⟨hchosen, hclear⟩ := hs.now hopen
  refine ⟨fun hkex q hq => ?_, hclear⟩
  obtain ⟨hacceptable, hguess, hkeyIn, hkeyOut, hmacIn, hmacOut⟩ := hchosen hkex q hq
  exact ⟨hacceptable, hguess, hkeyIn, hkeyOut, hmacIn, hmacOut⟩

theorem KexInitDone.guessKept (h : KexInitDone s t) (hs : GuessKept s) : GuessKept t := by
  obtain ⟨server, sent, hsends⟩ := h.sends
  exact (hs.withServer server sent).sends hsends

theorem KexInitFails.guessKept (h : KexInitFails E s t) (hs : GuessKept s) : GuessKept t := by
  obtain ⟨server, sent, hsends⟩ := h.sends
  exact (hs.withServer server sent).sends hsends

/-- Outside an exchange a clear flag is all there is to it. -/
theorem GuessKept.of_ne_waitDh (hkex : s.conn.kex ≠ .waitDh)
    (hflag : s.conn.kx.ignoreNextKexPacket = false) (hpast : Along DispatchFits s.log) :
    GuessKept s :=
  ⟨fun _ => ⟨fun h => absurd h hkex, fun _ => hflag⟩, fun _ => hkex, hpast⟩

theorem HandlesKexInit.guessKept {packet mac : Bytes} (harrives : Arrives E s q packet mac)
    (hmsg : msgOf q = msgKexinit) (h : HandlesKexInit E q (s.dispatched q packet mac) t)
    (hs : GuessKept s) : GuessKept t := by
  have hpast := hs.arrived harrives
  -- the client's message is kept, the flag is clear
  have hkept : s.conn.awaitsKexInit → GuessKept ((s.dispatched q packet mac).withKx
      { s.conn.kx with clientKexInit := some q }) := fun hkex =>
    .of_ne_waitDh hkex.ne_waitDh ((hs.now harrives.ne_closed).clear (.inl hkex.ne_waitDh)) hpast
  cases h with
  | unexpected _ hend => exact hend.guessKept hpast
  | noMemory _ hend => exact hend.guessKept hpast
  | failed hkex _ hfail => exact hfail.guessKept (hkept hkex)
  | notNegotiated k hkex hdone _ _ hend => exact hend.guessKept (hdone.guessKept (hkept hkex)).past
  | @negotiated u k hkex hdone _ _ hchosen =>
      have hu := hdone.guessKept (hkept hkex)
      obtain ⟨server, sent, hsends⟩ := hdone.sends
      obtain ⟨es, hes, hsend⟩ := hsends.log
      have hawaited : awaited u.log = some q := by
        rw [hes, awaited_append]
        · exact awaited_kexInit hmsg
        · rintro e he payload packet mac c rfl
          exact absurd (hsend _ he).1 (by simp [Event.isSend])
      have hversion : u.conn.state ≠ .version := by
        rw [hdone.state_eq]
        exact harrives.ne_version
      refine ⟨fun _ => ⟨fun _ q' hq' => ?_, ?_⟩, fun h => absurd h hversion, hu.past⟩
      · obtain rfl : q = q' := Option.some.inj (hawaited.symm.trans hq')
        exact hchosen
      · rintro (h | h)
        · exact absurd rfl h
        · rw [hawaited] at h
          cases h

theorem ExchangeEnds.guessKept {x : Transcript} {sessionId : Bytes} (hx : Exchanges E s q x)
    (h : ExchangeEnds E x sessionId (s.exchanged E x) t) (hs : GuessKept s) : GuessKept t := by
  have hawaited : awaited s.log = none := by
    obtain ⟨packet, mac, c, log, hlog, -⟩ := hx.handling
    rw [hlog, awaited_kexMethod]
    rw [isKexMethod, hx.msg]
    decide
  have hflag : s.conn.kx.ignoreNextKexPacket = false :=
    (hs.now hx.ne_closed).clear (.inr hawaited)
  have hstart : GuessKept (s.exchanged E x) := by
    refine ⟨fun _ => ⟨fun _ q hq => ?_, fun _ => hflag⟩, hs.version, ?_, hs.past⟩
    · exact absurd (hawaited.symm.trans hq) (by simp)
    · rintro payload packet mac c ⟨⟩
  refine (h.keeps (I := fun u => GuessKept u ∧ u.conn.kx.ignoreNextKexPacket = false)
    (fun u v hsends hu => ⟨hu.1.sends hsends, ?_⟩) (fun u derive _ hu => ⟨?_, hu.2⟩)
    ⟨hstart, hflag⟩).1
  · rw [hsends.frame.kx]
    exact hu.2
  · exact .of_ne_waitDh (by simp [Conn.switched]) hu.2 hu.1.past

theorem HandlesNewKeys.guessKept (h : HandlesNewKeys s t) (hs : GuessKept s) : GuessKept t := by
  refine h.keeps (fun _ _ hsends hu => hu.sends hsends) (fun hkex hu => ?_) hs
  refine ⟨fun hopen => ?_, fun _ => by simp [Conn.installed], hu.past⟩
  have hclosed : s.conn.state ≠ .closed := by
    intro hclosed
    refine hopen ?_
    simp [Conn.installed, hclosed]
  refine ⟨by simp [Conn.installed], fun _ => ?_⟩
  exact (hu.now hclosed).clear (.inl (by rw [hkex]; decide))

theorem Step.guessKept (h : Step E s t) (hs : GuessKept s) : GuessKept t := by
  cases h with
  | dispatch p packet mac harrives hother hkeep =>
      exact hs.dispatched harrives hother.1 hkeep
  | skipGuess harrives hskip => exact hs.skipped harrives hskip
  | disconnect hend => exact hend.guessKept hs.past
  | reply _ _ h | writeLost _ _ h => exact hs.sends h.sends
  -- the key exchange
  | acceptVersion line hstate hfits =>
      have hkex := hs.version hstate
      refine .of_ne_waitDh (by simp) ((hs.now ?_).clear (.inl hkex)) hs.past
      rw [hstate]
      decide
  | firstKexInit _ _ _ hdone => exact hdone.guessKept hs
  | firstKexInitFailed _ _ hfail => exact hfail.guessKept hs
  | kexInit harrives hmsg hend => exact hend.guessKept harrives hmsg hs
  | exchange x hx hend => exact hend.guessKept hx hs
  | newKeys harrives hmsg hend =>
      refine hend.guessKept (hs.dispatched harrives ?_ (s.conn.discards_of_msg ?_))
      · rw [hmsg]
        decide
      · rw [hmsg]
        decide
  -- elsewhere the exchange is left alone
  | versionSent | adjust | readEnd | data | accepted =>
      exact hs.congr id id rfl rfl ⟨[_], rfl, by simp⟩
  | authAccepted hq hmsg hstate hform h =>
      refine GuessKept.sends h.sends (hs.congr (fun _ => ?_) nofun rfl rfl ⟨[_], rfl, by simp⟩)
      rw [hstate]
      decide
  | authRejected _ _ _ _ _ h | openChannel _ _ _ _ _ _ _ _ h =>
      exact GuessKept.sends h.sends (hs.congr id id rfl rfl ⟨[_], rfl, by simp⟩)
  | authExhausted _ _ h =>
      exact GuessKept.sends h.sends (hs.congr id id rfl rfl ⟨[_], rfl, by simp⟩)
  | closeReply _ _ _ _ h =>
      exact GuessKept.sends h.sends (hs.congr id id rfl rfl ⟨[], rfl, by simp⟩)
  | writeData _ _ _ _ _ h =>
      exact (hs.sends h.sends).congr id id rfl rfl ⟨[], rfl, by simp⟩
  | startClose _ _ _ _ h =>
      obtain ⟨u, hsends, rfl⟩ := h.sends
      exact (hs.sends hsends).congr id id rfl rfl ⟨[], rfl, by simp⟩
  | read max _ hcredit =>
      obtain ⟨u, consumed, hsends, rfl⟩ := hcredit.sends
      have hpopped : GuessKept (s.popped max) :=
        hs.congr id id rfl rfl ⟨[_], rfl, by simp⟩
      exact (hpopped.sends hsends).congr id id rfl rfl ⟨[], rfl, by simp⟩
  | close => exact hs.congr (fun hopen => absurd rfl hopen) nofun rfl rfl ⟨[], rfl, by simp⟩
  | _ => exact hs.congr id id rfl rfl ⟨[], rfl, by simp⟩

/-! ## Which packets are discarded -/

/-- An exchange waits for its first packet, and the `KEXINIT` that started it satisfies
`P`. -/
def Awaits (P : ClientKexInit → Prop) (c : Conn) (older : List Event) : Prop :=
  c.kex = .waitDh ∧ ∃ q f, awaited older = some q ∧ f.Encodes q ∧ P f

theorem ClientKexInit.guess_congr {f g : ClientKexInit} (h : g.fields = f.fields) :
    (g.GuessesWrong ↔ f.GuessesWrong) ∧ (g.Misjudged ↔ f.Misjudged) := by
  have hfollows : g.firstFollows = f.firstFollows := congrArg KexInitFields.firstFollows h
  have hkex : g.kex = f.kex := congrArg KexInitFields.kex h
  have hhk : g.hk = f.hk := congrArg KexInitFields.hk h
  rw [GuessesWrong, GuessesWrong, Misjudged, Misjudged, hfollows, hkex, hhk]
  exact ⟨.rfl, .rfl⟩

/-- What depends on the fields read is known of the `KEXINIT` once it is known of one
reading. -/
theorem awaits_iff {P : ClientKexInit → Prop} {older : List Event} {f : ClientKexInit}
    (hkex : c.kex = .waitDh) (hq : awaited older = some q) (hf : f.Encodes q)
    (hP : ∀ g, g.fields = f.fields → (P g ↔ P f)) : Awaits P c older ↔ P f := by
  refine ⟨?_, fun hPf => ⟨hkex, q, f, hq, hf, hPf⟩⟩
  rintro ⟨-, q', g, hq', hg, hPg⟩
  obtain rfl : q = q' := Option.some.inj (hq.symm.trans hq')
  have hfields := (ClientKexInit.readKexInit_of_encodes hg).2.symm.trans
    (ClientKexInit.readKexInit_of_encodes hf).2
  exact (hP g hfields).mp hPg

theorem Chosen.discards_iff {k : Exchange} {f : ClientKexInit} (h : Chosen q k)
    (hf : f.Encodes q) :
    (k.ignoreNextKexPacket = true ↔ f.GuessesWrong) ↔ ¬ f.Misjudged := by
  obtain ⟨pick, hpick, hflag⟩ := h.guess
  have hagrees := (ClientKexInit.acceptable_iff hf).mp h.acceptable
  rw [(ClientKexInit.readKexInit_of_encodes hf).2] at hpick hflag
  rw [pickAlg_eq (nil_not_mem_server_names (by simp))] at hpick
  rw [← ClientKexInit.flag_iff hagrees hpick, hflag, Bool.and_eq_true, decide_eq_true_iff]
  rfl

/-- **Guessed key exchange packet.**  In every run a packet of the key exchange method is
discarded exactly when it is the first one of its exchange and the client had announced
it behind a wrong guess: unless that guess was the second name of `KEX_ALGS`. -/
theorem guessed_packet_iff {s : Server} (h : Reachable E s) {newer older : List Event}
    {payload packet mac : Bytes} {c : Conn}
    (hlog : s.link.log = newer ++ .dispatch payload packet mac c :: older)
    (hmethod : isKexMethod payload) :
    (c.discards payload = true ↔ Awaits ClientKexInit.GuessesWrong c older) ↔
      ¬ Awaits ClientKexInit.Misjudged c older := by
  have hkept : GuessKept s.link.toSession := h.invariant guessKept_new fun _ _ => Step.guessKept
  obtain ⟨hchosen, hclear⟩ := along_iff.mp hkept.past newer _ older hlog payload packet mac c rfl
  have hflag : c.discards payload = true ↔ c.kx.ignoreNextKexPacket = true := by
    rw [Conn.discards_iff]
    exact ⟨And.left, fun hflag => ⟨hflag, hmethod⟩⟩
  rw [hflag]
  by_cases hwaits : c.kex = .waitDh ∧ awaited older ≠ none
  · obtain ⟨hkex, hawaited⟩ := hwaits
    obtain ⟨q, hq⟩ := Option.ne_none_iff_exists'.mp hawaited
    have hchosen := hchosen hkex q hq
    obtain ⟨f, hf⟩ := ClientKexInit.exists_encodes hchosen.acceptable.long
      hchosen.acceptable.complete
    rw [awaits_iff hkex hq hf fun g hg => (ClientKexInit.guess_congr hg).1,
      awaits_iff hkex hq hf fun g hg => (ClientKexInit.guess_congr hg).2]
    exact hchosen.discards_iff hf
  · have hnone : ∀ P, ¬ Awaits P c older := by
      rintro P ⟨hkex, q, f, hq, -⟩
      refine hwaits ⟨hkex, ?_⟩
      rw [hq]
      exact Option.some_ne_none q
    rw [hclear ((not_and_or.mp hwaits).imp_right not_not.mp)]
    simp [hnone]

/-! ### Clients that guess -/

/-- A client that lists `kex` and guesses its first name. -/
def guessing (kex : String) : ClientKexInit where
  kex := ascii kex
  hk := ascii hostkeyAlgs
  encCs := ascii encAlgs
  encSc := ascii encAlgs
  macCs := ascii macAlgs
  macSc := ascii macAlgs
  compCs := ascii compAlgs
  compSc := ascii compAlgs
  langCs := []
  langSc := []
  firstFollows := 1
  reserved := 0

def guessingKexInit (kex : String) : Bytes :=
  msgKexinit :: (zeros 16).toList ++ (guessing kex).bytes

theorem guessing_encodes {kex : String} (h : (ascii kex).length < 2 ^ 32) :
    (guessing kex).Encodes (guessingKexInit kex) := by
  refine ⟨?_, msgKexinit :: (zeros 16).toList, [], by simp, ?_⟩
  swap
  · rw [guessingKexInit, List.append_nil]
  simp only [ClientKexInit.lists, guessing, List.forall_mem_cons]
  exact ⟨h, by decide, by decide, by decide, by decide, by decide, by decide, by decide, by decide,
    by decide, by simp⟩

/-- What such a client sends up to the packet it guessed. -/
def guessingClient (kex : String) : List ReadResult :=
  [.data (clientVersionLine ++ clearFrame (guessingKexInit kex) ++ clearFrame kexdhInit)]

/-- The last `KEXDH_INIT` that arrived, with the connection it found and what came
before. -/
def kexdhArrival : List Event → Option (Conn × List Event)
  | [] => none
  | .dispatch p _ _ c :: log => if p = kexdhInit then some (c, log) else kexdhArrival log
  | _ :: log => kexdhArrival log

theorem kexdhArrival_mem {log older : List Event} (h : kexdhArrival log = some (c, older)) :
    ∃ newer packet mac, log = newer ++ .dispatch kexdhInit packet mac c :: older := by
  induction log with
  | nil => cases h
  | cons e log ih =>
      by_cases hhere : ∃ packet mac, e = .dispatch kexdhInit packet mac c ∧ log = older
      · obtain ⟨packet, mac, rfl, rfl⟩ := hhere
        exact ⟨[], packet, mac, rfl⟩
      · have hlater : kexdhArrival log = some (c, older) := by
          cases e with
          | dispatch p packet mac c' =>
              rw [kexdhArrival] at h
              split at h
              · next hp =>
                  cases h
                  exact absurd ⟨packet, mac, by rw [hp], rfl⟩ hhere
              · exact h
          | _ => exact h
        obtain ⟨newer, packet, mac, rfl⟩ := ih hlater
        exact ⟨e :: newer, packet, mac, rfl⟩

/-- A test of how a client's guessed packet fares shows such an arrival. -/
theorem exists_arrival (kex : String) (discarded : Bool)
    (h : (scenario (plainEnv fun _ _ => true) [.poll] (guessingClient kex)).any (fun s =>
      decide ((kexdhArrival s.link.log).any (fun a => decide (a.1.kex = .waitDh ∧
        a.1.discards kexdhInit = discarded ∧ awaited a.2 = some (guessingKexInit kex))) = true)) =
          true) :
    ∃ s newer older packet mac c, Reachable (plainEnv fun _ _ => true) s ∧
      s.link.log = newer ++ .dispatch kexdhInit packet mac c :: older ∧ c.kex = .waitDh ∧
      c.discards kexdhInit = discarded ∧ awaited older = some (guessingKexInit kex) := by
  obtain ⟨s, hreach, hrun⟩ := exists_reachable (P := fun s => (kexdhArrival s.link.log).any
    (fun a => decide (a.1.kex = .waitDh ∧ a.1.discards kexdhInit = discarded ∧
      awaited a.2 = some (guessingKexInit kex))) = true) [.poll] (guessingClient kex) h
  obtain ⟨⟨c, older⟩, harrival, hc⟩ := (Option.any_eq_true _ _).mp hrun
  obtain ⟨hkex, hdiscards, hawaited⟩ := of_decide_eq_true hc
  obtain ⟨newer, packet, mac, hlog⟩ := kexdhArrival_mem harrival
  exact ⟨s, newer, older, packet, mac, c, hreach, hlog, hkex, hdiscards, hawaited⟩

/-- A packet behind a guess that the server does not support is discarded. -/
theorem guessed_packet_of_unknown_name : ∃ s newer older packet mac c,
    Reachable (plainEnv fun _ _ => true) s ∧
      s.link.log = newer ++ .dispatch kexdhInit packet mac c :: older ∧
      c.discards kexdhInit = true ∧
      ((c.discards kexdhInit = true ↔ Awaits ClientKexInit.GuessesWrong c older) ↔
        ¬ Awaits ClientKexInit.Misjudged c older) := by
  obtain ⟨s, newer, older, packet, mac, c, hreach, hlog, -, hdiscards, -⟩ :=
    exists_arrival "ecdh-sha2-nistp256,curve25519-sha256" true (by decide +kernel)
  exact ⟨s, newer, older, packet, mac, c, hreach, hlog, hdiscards,
    guessed_packet_iff hreach hlog (by decide)⟩

/-- A client that prefers the second name of `KEX_ALGS` guesses it: the server picks it
too, and does not discard the packet. -/
theorem misjudged_packet_kept : ∃ s newer older packet mac c,
    Reachable (plainEnv fun _ _ => true) s ∧
      s.link.log = newer ++ .dispatch kexdhInit packet mac c :: older ∧ isKexMethod kexdhInit ∧
      ¬ (c.discards kexdhInit = true ↔ Awaits ClientKexInit.GuessesWrong c older) := by
  obtain ⟨s, newer, older, packet, mac, c, hreach, hlog, hkex, hdiscards, hawaited⟩ :=
    exists_arrival "curve25519-sha256@libssh.org" false (by decide +kernel)
  refine ⟨s, newer, older, packet, mac, c, hreach, hlog, by decide, ?_⟩
  have hwrong : Awaits ClientKexInit.GuessesWrong c older :=
    ⟨hkex, _, _, hawaited, guessing_encodes (by decide), by decide, .inl (by decide)⟩
  rw [hdiscards]
  simp [hwrong]

end EfiSshServer
