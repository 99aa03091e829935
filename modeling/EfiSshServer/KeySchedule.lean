import EfiSshServer.Lib.KeyStream
import EfiSshServer.ExchangeHash
import EfiSshServer.Negotiation

/-!
# The key schedule

Both directions switch to new keys, but not at the same time: the outgoing one right behind
the server's `NEWKEYS`, the incoming one when the client's arrives.  Until then its keys
wait in fields of the connection, next to the algorithm choices of the exchange after.

## Strategy

* `deriveKey_eq` is about a single key: the loop of `DeriveKey` computes the stream of
  `KeyStream`, and a key that is derived at its full length and cut off is the shorter key.
* `Ledger` numbers the exchanges by the `NEWKEYS` messages of both sides, and `Keyed` says
  which keys belong to number `n`.
* `KeyState` is what holds of an open connection: the keys of each direction belong to the
  number of `NEWKEYS` messages that went over it, and the waiting ones to the next.
* Only a few steps change keys or what they are numbered by; all others are `KeepsKeys`.

The one packet that is sent behind `NEWKEYS` under the keys before it is the `DISCONNECT` of
a connection whose new key could not be set.
-/

namespace EfiSshServer

open StateProgram History

variable {E : Env} {q p : Bytes} {r : Int} {s t u : Session} {c c' : Conn} {x : Transcript}
  {log es : List Event} {held : Option DirKeys} {n need : ℕ}

/-! ## Derivation -/

/-- SHA-256 from bytes to bytes. -/
def Env.digest (E : Env) (b : Bytes) : Bytes := (E.sha256 b).toList

theorem length_digest (b : Bytes) : (E.digest b).length = 32 := List.Vector.toList_length _

/-- The key for `letter` out of the exchange `x`. -/
def Transcript.key (x : Transcript) (E : Env) (sessionId : Bytes) (letter : Char) (need : ℕ) :
    Bytes :=
  KeyStream.key E.digest 32 (hashStr (mpintBody x.k) ++ x.hash E)
    ([UInt8.ofNat letter.toNat] ++ sessionId) need

/-- The loop of `DeriveKey` adds blocks until there are enough bytes. -/
theorem extendKey_blocks (kMp h label : Bytes) (rounds n : ℕ)
    (hrounds : need ≤ (KeyStream.blocks E.digest (kMp ++ h) label n).length + rounds) :
    ∃ m, extendKey E kMp h need rounds (KeyStream.blocks E.digest (kMp ++ h) label n) =
        KeyStream.blocks E.digest (kMp ++ h) label m ∧
      need ≤ (KeyStream.blocks E.digest (kMp ++ h) label m).length := by
  induction rounds generalizing n with
  | zero => exact ⟨n, rfl, hrounds⟩
  | succ rounds ih =>
      rw [extendKey]
      by_cases hmore : (KeyStream.blocks E.digest (kMp ++ h) label n).length < need
      · rw [if_pos hmore]
        refine ih (n + 1) ?_
        rw [KeyStream.blocks, List.length_append, length_digest]
        omega
      · rw [if_neg hmore]
        exact ⟨n, rfl, Nat.not_lt.mp hmore⟩

theorem deriveKey_eq (hk : x.k.length = 32) (sessionId : Bytes) (letter : Char) (need : ℕ) :
    deriveKey E sessionId x.kMp (x.hash E) letter need = x.key E sessionId letter need := by
  rw [deriveKey, x.kMp_eq hk, Transcript.key, List.append_assoc _ [_] sessionId]
  obtain ⟨m, heq, henough⟩ := extendKey_blocks (E := E) (hashStr (mpintBody x.k)) (x.hash E)
    ([UInt8.ofNat letter.toNat] ++ sessionId) need 0 (Nat.le_add_left need _)
  rw [KeyStream.blocks, Env.digest] at heq
  rw [heq]
  exact KeyStream.take_blocks length_digest (by decide) henough

/-- A key cut off is the shorter key. -/
theorem Transcript.take_key (x : Transcript) (sessionId : Bytes) (letter : Char) {m n : ℕ}
    (h : m ≤ n) : (x.key E sessionId letter n).take m = x.key E sessionId letter m :=
  KeyStream.take_key length_digest (by decide) h

/-- The outgoing keys out of the exchange `x`, for the choices in `k`. -/
def outKeys (E : Env) (sessionId : Bytes) (x : Transcript) (k : Exchange) : DirKeys where
  key := x.key E sessionId 'D' k.nextEncKeyLenOut
  iv := x.key E sessionId 'B' 16
  macKey := x.key E sessionId 'F' (macLenOf k.nextMacTypeOut)
  macType := k.nextMacTypeOut

/-- The incoming keys. -/
def inKeys (E : Env) (sessionId : Bytes) (x : Transcript) (k : Exchange) : DirKeys where
  key := x.key E sessionId 'C' k.nextEncKeyLenIn
  iv := x.key E sessionId 'A' 16
  macKey := x.key E sessionId 'E' (macLenOf k.nextMacTypeIn)
  macType := k.nextMacTypeIn

theorem CipherKeyLen.le {name : Bytes} (h : CipherKeyLen name n) : n ≤ 32 := by
  cases h <;> decide

theorem macLenOf_le (type : MacType) : macLenOf type ≤ 64 := by cases type <;> decide

/-- The keys that `DoKexDh` puts into use. -/
theorem Conn.switched_keys {f : ClientKexInit} (hk : x.k.length = 32) (sessionId : Bytes)
    (h : f.Chooses c.kx) :
    (c.switched (deriveKey E sessionId x.kMp (x.hash E))).outDir.keys =
      some (outKeys E sessionId x c.kx) := by
  obtain ⟨_, -, hlen⟩ := h.cipherOut
  simp only [Conn.switched, Dir.keys, Dir.macLen, if_true, deriveKey_eq hk, outKeys,
    x.take_key sessionId 'D' hlen.le, x.take_key sessionId 'F' (macLenOf_le _)]

/-- The keys that wait, as they will be used. -/
def Pending.keys (p : Pending) : DirKeys where
  key := p.pendKey.take p.pendKeyLen
  iv := p.pendIv
  macKey := p.pendMac.take (macLenOf p.pendMacType)
  macType := p.pendMacType

theorem Conn.installed_keys (c : Conn) : c.installed.inDir.keys = some c.pend.keys := rfl

theorem Conn.switched_pend {f : ClientKexInit} (hk : x.k.length = 32) (sessionId : Bytes)
    (h : f.Chooses c.kx) :
    (c.switched (deriveKey E sessionId x.kMp (x.hash E))).pend.keys =
      inKeys E sessionId x c.kx := by
  obtain ⟨_, -, hlen⟩ := h.cipherIn
  simp only [Conn.switched, Pending.keys, deriveKey_eq hk, inKeys,
    x.take_key sessionId 'C' hlen.le, x.take_key sessionId 'E' (macLenOf_le _)]

/-! ## Numbering the exchanges -/

/-- The exchanges of which a hash was computed; for each `NEWKEYS` sent, the last of them at
that time; and how many `NEWKEYS` have arrived. -/
structure Ledger where
  exchanges : List Transcript
  renewals : List (Option Transcript)
  arrived : ℕ

def Ledger.record (l : Ledger) : Event → Ledger
  | .exchange x _ => { l with exchanges := l.exchanges ++ [x] }
  | .sent p _ =>
      if msgOf p = msgNewkeys then { l with renewals := l.renewals ++ [l.exchanges.getLast?] }
      else l
  | .dispatch p _ _ _ => if msgOf p = msgNewkeys then { l with arrived := l.arrived + 1 } else l
  | _ => l

def ledger : List Event → Ledger
  | [] => ⟨[], [], 0⟩
  | e :: log => (ledger log).record e

/-- The keys are those behind number `n` of the `NEWKEYS` messages of a direction: none before
the first, else what `derive` makes of the exchange with that number, under the algorithms
negotiated in it.  The session id is the first exchange hash there is. -/
inductive Keyed (derive : Bytes → Transcript → Exchange → DirKeys) (E : Env) (l : Ledger) :
    ℕ → Option DirKeys → Prop
  | clear : Keyed derive E l 0 none
  | renewed {n : ℕ} {x first : Transcript} {f : ClientKexInit} {k : Exchange}
      (hx : l.renewals[n]? = some (some x)) (hfirst : l.exchanges.head? = some first)
      (hform : f.Encodes x.clientKexInit) (hchosen : f.Chooses k) :
      Keyed derive E l (n + 1) (some (derive (first.hash E) x k))

/-- Later exchanges change nothing. -/
theorem Keyed.mono {derive : Bytes → Transcript → Exchange → DirKeys} {l l' : Ledger}
    (h : Keyed derive E l n held) (hexchanges : l.exchanges <+: l'.exchanges)
    (hrenewals : l.renewals <+: l'.renewals) : Keyed derive E l' n held := by
  cases h with
  | clear => exact .clear
  | renewed hx hfirst hform hchosen =>
      refine .renewed ?_ ?_ hform hchosen
      · obtain ⟨rest, heq⟩ := hrenewals
        rw [← heq, List.getElem?_append_left (List.getElem?_eq_some_iff.mp hx).1]
        exact hx
      · obtain ⟨rest, heq⟩ := hexchanges
        rw [← heq, List.head?_append, hfirst, Option.some_or]


/-! ## Steps that leave the keys alone -/

/-- Neither an exchange nor `NEWKEYS`, recorded under the keys of the open connection `c`. -/
def Event.KeepsKeys (c : Conn) : Event → Prop
  | .exchange .. => False
  | .sent p c' => msgOf p ≠ msgNewkeys ∧ c'.outDir.keys = c.outDir.keys ∧ c.state ≠ .closed
  | .dispatch p _ _ c' => msgOf p ≠ msgNewkeys ∧ c'.inDir.keys = c.inDir.keys ∧ c.state ≠ .closed
  | _ => True

theorem ledger_append (h : ∀ e ∈ es, e.KeepsKeys c) : ledger (es ++ log) = ledger log := by
  induction es with
  | nil => rfl
  | cons e es ih =>
      have he := h e List.mem_cons_self
      rw [List.cons_append, ledger, ih fun e he => h e (List.mem_cons_of_mem _ he)]
      cases e with
      | exchange => exact he.elim
      | sent | dispatch => exact if_neg he.1
      | _ => rfl

/-- Keys, and what they are numbered by, are left alone. -/
structure KeepsKeys (s t : Session) : Prop where
  isOpen : t.conn.state ≠ .closed → s.conn.state ≠ .closed
  version : t.conn.state = .version → s.conn.state = .version
  kex : t.conn.kex = .waitNewkeys ↔ s.conn.kex = .waitNewkeys
  sessionId : t.conn.kx.sessionId = s.conn.kx.sessionId
  outKeys : t.conn.outDir.keys = s.conn.outDir.keys
  inKeys : t.conn.inDir.keys = s.conn.inDir.keys
  pend : t.conn.pend = s.conn.pend
  log : ∃ es, t.log = es ++ s.log ∧ ∀ e ∈ es, e.KeepsKeys s.conn

theorem KeepsKeys.trans (h : KeepsKeys s t) (h' : KeepsKeys t u) : KeepsKeys s u where
  isOpen hu := h.isOpen (h'.isOpen hu)
  version hu := h.version (h'.version hu)
  kex := h'.kex.trans h.kex
  sessionId := h'.sessionId.trans h.sessionId
  outKeys := h'.outKeys.trans h.outKeys
  inKeys := h'.inKeys.trans h.inKeys
  pend := h'.pend.trans h.pend
  log := by
    obtain ⟨es, hes, hkeeps⟩ := h.log
    obtain ⟨es', hes', hkeeps'⟩ := h'.log
    refine ⟨es' ++ es, by rw [hes', hes, List.append_assoc], fun e he => ?_⟩
    refine (List.mem_append.mp he).elim (fun he => ?_) (hkeeps e)
    have he := hkeeps' e he
    cases e with
    | exchange => exact he
    | sent => exact ⟨he.1, he.2.1.trans h.outKeys, h.isOpen he.2.2⟩
    | dispatch => exact ⟨he.1, he.2.1.trans h.inKeys, h.isOpen he.2.2⟩
    | _ => trivial

theorem Sends.keepsKeys {P : UInt8 → Prop} (h : Sends P s t) (hP : ¬ P msgNewkeys) :
    KeepsKeys s t := by
  obtain ⟨es, hes, hsend⟩ := h.log
  have hstage : SameStage s.conn t.conn := .of_state h.frame.state
  refine ⟨hstage.ne_closed, hstage.version, by rw [h.frame.kex], by rw [h.frame.kx],
    h.frame.outKeys, by rw [h.frame.inDir], h.frame.pend, es, hes, fun e he => ?_⟩
  obtain ⟨hside, hmsg⟩ := hsend e he
  cases e with
  | sent p c =>
      obtain ⟨hp, hkeys⟩ := hmsg p c rfl
      exact ⟨fun heq => hP (heq ▸ hp), hkeys⟩
  | sendFailed | kexInitFailed | closing => trivial
  | _ => cases hside

theorem Farewell.keepsKeys (h : Farewell s t) : KeepsKeys s t := h.sends.keepsKeys (by decide)

theorem Aside.keepsKeys (h : Aside s t) : KeepsKeys s t := by
  obtain ⟨es, hes, haside⟩ := h.log
  obtain ⟨ignore, hkx⟩ := h.kx
  refine ⟨h.state.ne_closed, h.state.version, by rw [h.kex], by rw [hkx], h.outKeys, h.inKeys,
    h.pend, es, hes, fun e he => ?_⟩
  have he := haside e he
  cases e with
  | exchange => exact he
  | sent => exact ⟨fun heq => he.1 (by rw [heq]; decide), he.2⟩
  | dispatch => exact ⟨he.1.2, he.2⟩
  | _ => trivial

theorem KeepsKeys.withKx {kx : Exchange} (h : kx.sessionId = s.conn.kx.sessionId) :
    KeepsKeys s (s.withKx kx) :=
  ⟨id, id, .rfl, h, rfl, rfl, rfl, [], rfl, by simp⟩

theorem KexInitDone.keepsKeys (h : KexInitDone s t) : KeepsKeys s t := by
  obtain ⟨server, sent, h⟩ := h.sends
  have hkept : KeepsKeys s ⟨{ s.conn with kx :=
      { s.conn.kx with serverKexInit := server, kexInitSent := sent } }, s.log⟩ := .withKx rfl
  exact hkept.trans (h.keepsKeys (by decide))

theorem KexInitFails.keepsKeys (h : KexInitFails E s t) : KeepsKeys s t := by
  obtain ⟨server, sent, h⟩ := h.sends
  have hkept : KeepsKeys s (s.withKx
      { s.conn.kx with serverKexInit := server, kexInitSent := sent }) := .withKx rfl
  exact hkept.trans (h.keepsKeys (by decide))

theorem HandlesKexInit.keepsKeys (h : HandlesKexInit E q s t) : KeepsKeys s t := by
  have hclient : ∀ b, KeepsKeys s (s.withKx { s.conn.kx with clientKexInit := b }) :=
    fun b => .withKx rfl
  cases h with
  | unexpected _ hend => exact hend.keepsKeys
  | noMemory _ hend => exact (hclient none).trans hend.keepsKeys
  | failed _ _ hfail => exact (hclient (some q)).trans hfail.keepsKeys
  | notNegotiated k _ hdone hsame _ hend =>
      exact ((hclient (some q)).trans hdone.keepsKeys).trans
        ((KeepsKeys.withKx hsame.2.2).trans hend.keepsKeys)
  | @negotiated u k hawaits hdone hsame =>
      have hu := (hclient (some q)).trans (hdone.keepsKeys.trans (.withKx hsame.2.2))
      refine ⟨hu.isOpen, hu.version, ?_, hu.sessionId, hu.outKeys, hu.inKeys, hu.pend, hu.log⟩
      constructor
      · exact nofun
      · intro hwait
        rcases hawaits with h | h <;> rw [hwait] at h <;> cases h


/-! ## Which keys are in use -/

/-- The keys the packet `p` is sent under over the connection `c`: those behind the last
`NEWKEYS` that was sent, except for the `DISCONNECT` behind a `NEWKEYS` whose key could not
be set, which goes out under the keys of that `NEWKEYS`. -/
inductive SentUnder (E : Env) (p : Bytes) (c : Conn) (older : List Event) : Prop
  | current (h : Keyed (outKeys E) E (ledger older) (ledger older).renewals.length c.outDir.keys)
  | unset {c' : Conn} {log : List Event} (hmsg : msgOf p = msgDisconnect)
      (holder : older = .sent newkeysPayload c' :: log)
      (hfail : ∃ calls, E.aesSetKeyOk calls = false) (hkeys : c.outDir.keys = c'.outDir.keys)

/-- A packet is sent and received under the keys behind the last `NEWKEYS` of its
direction. -/
def KeysFit (E : Env) (e : Event) (older : List Event) : Prop :=
  (∀ p c, e = .sent p c → SentUnder E p c older) ∧
    ∀ p packet mac c, e = .dispatch p packet mac c →
      Keyed (inKeys E) E (ledger older) (ledger older).arrived c.inDir.keys

theorem keysFit_sent (h : SentUnder E p c log) : KeysFit E (.sent p c) log := by
  constructor
  · intro p' c' heq
    cases heq
    exact h
  · intro p' packet mac c' heq
    cases heq

theorem keysFit_dispatch {packet mac : Bytes}
    (h : Keyed (inKeys E) E (ledger log) (ledger log).arrived c.inDir.keys) :
    KeysFit E (.dispatch p packet mac c) log := by
  constructor
  · intro p' c' heq
    cases heq
  · intro p' packet' mac' c' heq
    cases heq
    exact h

theorem keysFit_other {e : Event} (hsent : ∀ p c, e ≠ .sent p c)
    (harrived : ∀ p packet mac c, e ≠ .dispatch p packet mac c) : KeysFit E e log :=
  ⟨fun p c heq => absurd heq (hsent p c), fun p packet mac c heq =>
    absurd heq (harrived p packet mac c)⟩

/-- The keys of an open connection. -/
structure KeyState (E : Env) (c : Conn) (l : Ledger) : Prop where
  out : Keyed (outKeys E) E l l.renewals.length c.outDir.keys
  inward : Keyed (inKeys E) E l l.arrived c.inDir.keys
  waiting : c.kex = .waitNewkeys → l.renewals.length = l.arrived + 1 ∧
    Keyed (inKeys E) E l (l.arrived + 1) (some c.pend.keys)
  settled : c.kex ≠ .waitNewkeys → l.renewals.length = l.arrived

/-- Behind a negotiation its choices are there. -/
def Conn.negotiated (c : Conn) : Prop :=
  c.kex = .waitDh → ∃ q, c.kx.clientKexInit = some q ∧
    ∃ f : ClientKexInit, f.Encodes q ∧ f.Chooses c.kx

structure KeysKept (E : Env) (s : Session) : Prop where
  session : s.conn.kx.sessionId = (ledger s.log).exchanges.head?.map fun x => x.hash E
  past : Along (KeysFit E) s.log
  start : s.conn.state = .version → s.conn.kex ≠ .waitNewkeys
  now : s.conn.state ≠ .closed → KeyState E s.conn (ledger s.log) ∧ s.conn.negotiated

theorem keysKept_new (hostSeed hostPub : Bytes) :
    KeysKept E ⟨newConn hostSeed hostPub, []⟩ where
  session := rfl
  past := trivial
  start := fun _ => by simp [newConn]
  now := fun _ => ⟨⟨.clear, .clear, by simp [newConn], fun _ => rfl⟩, by
    simp [Conn.negotiated, newConn]⟩

theorem KeepsKeys.keyState (h : KeepsKeys s t) (hs : KeyState E s.conn (ledger s.log)) :
    KeyState E t.conn (ledger t.log) := by
  obtain ⟨es, hes, hkeeps⟩ := h.log
  rw [hes, ledger_append hkeeps]
  refine ⟨h.outKeys ▸ hs.out, h.inKeys ▸ hs.inward, fun hwait => ?_, fun hne => ?_⟩
  · rw [h.pend]
    exact hs.waiting (h.kex.mp hwait)
  · exact hs.settled fun hwait => hne (h.kex.mpr hwait)

/-- The packets of such a step went under the keys of the connection. -/
theorem KeepsKeys.past (h : KeepsKeys s t)
    (hs : s.conn.state ≠ .closed → KeyState E s.conn (ledger s.log))
    (hpast : Along (KeysFit E) s.log) : Along (KeysFit E) t.log := by
  obtain ⟨es, hes, hkeeps⟩ := h.log
  rw [hes]
  refine hpast.append fun e newer older heq => ?_
  have he := hkeeps e (heq ▸ List.mem_append_right _ List.mem_cons_self)
  have holder : ledger (older ++ s.log) = ledger s.log :=
    ledger_append fun e he => hkeeps e (heq ▸ List.mem_append_right _ (List.mem_cons_of_mem _ he))
  refine ⟨fun p c hsent => .current ?_, fun p packet mac c harrived => ?_⟩
  · rw [hsent] at he
    rw [holder, he.2.1]
    exact (hs he.2.2).out
  · rw [harrived] at he
    rw [holder, he.2.1]
    exact (hs he.2.2).inward

theorem KeysKept.keeps (hs : KeysKept E s) (h : KeepsKeys s t)
    (hchosen : t.conn.state ≠ .closed → t.conn.negotiated) : KeysKept E t where
  session := by
    obtain ⟨es, hes, hkeeps⟩ := h.log
    rw [hes, ledger_append hkeeps, h.sessionId]
    exact hs.session
  past := h.past (fun hopen => (hs.now hopen).1) hs.past
  start ht hwait := hs.start (h.version ht) (h.kex.mp hwait)
  now hopen := ⟨h.keyState (hs.now (h.isOpen hopen)).1, hchosen hopen⟩

/-- Away from `KEX_WAIT_DH` nothing was negotiated. -/
theorem KeysKept.keeps_of_ne_waitDh (hs : KeysKept E s) (h : KeepsKeys s t)
    (hkex : t.conn.kex ≠ .waitDh) : KeysKept E t :=
  hs.keeps h fun _ hdh => absurd hdh hkex

theorem KeysKept.closed (hs : KeysKept E s) (h : KeepsKeys s t) (hclosed : t.conn.state = .closed) :
    KeysKept E t :=
  hs.keeps h fun hopen => absurd hclosed hopen

theorem Conn.negotiated.congr (h : c.negotiated) (hkex : c'.kex = c.kex)
    (hkx : ∃ ignore, c'.kx = { c.kx with ignoreNextKexPacket := ignore }) : c'.negotiated := by
  intro hdh
  obtain ⟨q, hq, f, hform, hchosen⟩ := h (hkex ▸ hdh)
  obtain ⟨ignore, hkx⟩ := hkx
  rw [hkx]
  exact ⟨q, hq, f, hform, hchosen.cipherIn, hchosen.cipherOut, hchosen.macIn, hchosen.macOut⟩

theorem KeysKept.sends {P : UInt8 → Prop} (hs : KeysKept E s) (h : Sends P s t)
    (hP : ¬ P msgNewkeys) : KeysKept E t := by
  have hkeeps := h.keepsKeys hP
  refine hs.keeps hkeeps fun hopen => ?_
  exact (hs.now (hkeeps.isOpen hopen)).2.congr h.frame.kex ⟨_, h.frame.kx⟩

theorem Aside.keysKept (h : Aside s t) (hs : KeysKept E s) : KeysKept E t := by
  refine hs.keeps h.keepsKeys fun hopen => ?_
  exact (hs.now (h.state.ne_closed hopen)).2.congr h.kex h.kx

/-! ## `KEXINIT` -/

theorem KeepsKeys.dispatched {packet mac : Bytes} (h : Arrives E s q packet mac)
    (hmsg : msgOf q ≠ msgNewkeys) : KeepsKeys s (s.dispatched q packet mac) :=
  ⟨id, id, .rfl, rfl, rfl, rfl, rfl, [_], rfl, by simpa using ⟨hmsg, rfl, h.ne_closed⟩⟩

theorem HandlesKexInit.leaves_negotiated (h : HandlesKexInit E q s t)
    (ht : t.conn.state ≠ .closed) : t.conn.negotiated := by
  cases h with
  | unexpected _ hend | noMemory _ hend | notNegotiated _ _ _ _ _ hend =>
      exact absurd hend.closed ht
  | failed hkex _ hfail =>
      obtain ⟨server, sent, h⟩ := hfail.sends
      intro hdh
      rw [h.frame.kex] at hdh
      exact absurd hdh hkex.ne_waitDh
  | negotiated k _ hdone hsame _ hchosen =>
      intro _
      obtain ⟨f, hf⟩ := ClientKexInit.exists_encodes hchosen.acceptable.long
        hchosen.acceptable.complete
      refine ⟨q, ?_, f, hf, hchosen.chooses hf⟩
      rw [hsame.1, hdone.clientKexInit]
      rfl

theorem HandlesKexInit.keysKept {packet mac : Bytes} (harrives : Arrives E s q packet mac)
    (hmsg : msgOf q = msgKexinit) (h : HandlesKexInit E q (s.dispatched q packet mac) t)
    (hs : KeysKept E s) : KeysKept E t := by
  have hother : msgOf q ≠ msgNewkeys := by
    rw [hmsg]
    decide
  exact hs.keeps ((KeepsKeys.dispatched harrives hother).trans h.keepsKeys) h.leaves_negotiated


/-! ## The exchange -/

theorem Exchanges.k_length (hx : Exchanges E s q x) : x.k.length = 32 := by
  obtain ⟨_, -, -, hk⟩ := hx.agreed
  exact hk

/-- The first exchange hash is the session id. -/
theorem Exchanges.keysKept (hx : Exchanges E s q x) (hs : KeysKept E s) :
    KeysKept E (s.exchanged E x) := by
  obtain ⟨hstate, hchosen⟩ := hs.now hx.ne_closed
  have hprefix : (ledger s.log).exchanges <+: (ledger (s.exchanged E x).log).exchanges :=
    List.prefix_append _ _
  refine ⟨?_, ⟨keysFit_other (by simp) (by simp), hs.past⟩, hs.start, fun _ => ⟨?_, ?_⟩⟩
  · rw [show (ledger (s.exchanged E x).log).exchanges = (ledger s.log).exchanges ++ [x] from rfl,
      List.head?_append]
    have hsession := hs.session
    simp only [Session.exchanged]
    rw [hsession]
    cases (ledger s.log).exchanges.head? <;> rfl
  · refine ⟨hstate.out.mono hprefix List.prefix_rfl, hstate.inward.mono hprefix List.prefix_rfl,
      fun hwait => ?_, hstate.settled⟩
    exact ⟨(hstate.waiting hwait).1, (hstate.waiting hwait).2.mono hprefix List.prefix_rfl⟩
  · intro hdh
    obtain ⟨q', hq', f, hform, hc⟩ := hchosen hdh
    exact ⟨q', hq', f, hform, hc.cipherIn, hc.cipherOut, hc.macIn, hc.macOut⟩

/-- The reply is sent: the state in which `NEWKEYS` is. -/
structure Replied (E : Env) (s : Session) (x : Transcript) (sessionId : Bytes) (u : Session) :
    Prop where
  kept : KeysKept E u
  ne_version : u.conn.state ≠ .version
  kex : u.conn.kex = .waitDh
  newest : (ledger u.log).exchanges.getLast? = some x
  sessionId : u.conn.kx.sessionId = some sessionId
  client : u.conn.kx.clientKexInit = some x.clientKexInit

theorem Exchanges.replied_keys (hx : Exchanges E s q x) (hs : KeysKept E s)
    (h : Emits (x.reply E c) (s.exchanged E x) 0 u) :
    Replied E s x (s.conn.kx.sessionId.getD (x.hash E)) u where
  kept := (hx.keysKept hs).sends h.sends (by rw [x.msgOf_reply]; decide)
  ne_version hu := hx.ne_version ((SameStage.of_state h.frame.state).version hu)
  kex := h.frame.kex.trans hx.kex
  newest := by
    obtain ⟨es, hes, hkeeps⟩ := (h.sends.keepsKeys (by rw [x.msgOf_reply]; decide)).log
    rw [hes, ledger_append hkeeps]
    exact List.getLast?_concat
  sessionId := by
    rw [h.frame.kx]
    rfl
  client := by
    rw [h.frame.kx]
    exact hx.clientKexInit

/-- The log behind `NEWKEYS`: it was sent under the keys before it. -/
theorem Replied.past {sessionId : Bytes} (h : Replied E s x sessionId u)
    (hkeys : Emits newkeysPayload u 0 t) :
    t.log = .sent newkeysPayload u.conn :: u.log ∧ Along (KeysFit E) t.log ∧
      ledger t.log = { ledger u.log with renewals := (ledger u.log).renewals ++ [some x] } := by
  have hlog := hkeys.log_eq.elim And.right fun h => absurd rfl h.1
  refine ⟨hlog, ?_, ?_⟩
  · rw [hlog]
    exact ⟨keysFit_sent (.current (h.kept.now (hkeys.ne_closed rfl)).1.out), h.kept.past⟩
  · rw [hlog, ledger, Ledger.record, if_pos msgOf_newkeysPayload, h.newest]

/-- The keys that are derived belong to the `NEWKEYS` just sent. -/
theorem Replied.keyed {sessionId : Bytes} {f : ClientKexInit}
    {derive : Bytes → Transcript → Exchange → DirKeys} (h : Replied E s x sessionId u)
    (hform : f.Encodes x.clientKexInit) (hchosen : f.Chooses u.conn.kx) :
    Keyed derive E { ledger u.log with renewals := (ledger u.log).renewals ++ [some x] }
      ((ledger u.log).renewals.length + 1) (some (derive sessionId x u.conn.kx)) := by
  have hsession := h.kept.session
  rw [h.sessionId] at hsession
  obtain ⟨first, hfirst, rfl⟩ := Option.map_eq_some_iff.mp hsession.symm
  exact .renewed List.getElem?_concat_length hfirst hform hchosen

theorem Replied.switched {sessionId : Bytes} (h : Replied E s x sessionId u)
    (hk : x.k.length = 32) (hkeys : Emits newkeysPayload u 0 t) :
    KeysKept E ⟨t.conn.switched (deriveKey E sessionId x.kMp (x.hash E)), t.log⟩ := by
  obtain ⟨-, hpast, hledger⟩ := h.past hkeys
  obtain ⟨hstate, hnegotiated⟩ := h.kept.now (hkeys.ne_closed rfl)
  obtain ⟨q, hq, f, hform, hchosen⟩ := hnegotiated h.kex
  cases h.client.symm.trans hq
  have hkx : t.conn.kx = u.conn.kx := hkeys.frame.kx
  rw [← hkx] at hchosen
  have hcount : (ledger u.log).renewals.length = (ledger u.log).arrived :=
    hstate.settled (by rw [h.kex]; decide)
  refine ⟨?_, hpast, fun ht => ?_, fun _ => ⟨?_, nofun⟩⟩
  · rw [show (t.conn.switched _).kx = u.conn.kx from hkx, hledger]
    exact h.kept.session
  · exact absurd ((SameStage.of_state hkeys.frame.state).version ht) h.ne_version
  · rw [hledger]
    refine ⟨?_, ?_, fun _ => ⟨?_, ?_⟩, fun hne => absurd rfl hne⟩
    · rw [t.conn.switched_keys hk sessionId hchosen, hkx, List.length_append]
      exact h.keyed hform (hkx ▸ hchosen)
    · rw [show (t.conn.switched _).inDir = u.conn.inDir from hkeys.frame.inDir]
      exact hstate.inward.mono List.prefix_rfl (List.prefix_append _ _)
    · rw [List.length_append, hcount]
      rfl
    · rw [t.conn.switched_pend hk sessionId hchosen, hkx, ← hcount]
      exact h.keyed hform (hkx ▸ hchosen)


/-! ## Connections that end -/

/-- A packet that is lost was not sent. -/
theorem Emits.keepsKeys_of_lost (h : Emits p s r t) (hr : r ≠ 0) : KeepsKeys s t := by
  have hlog := h.log_eq.elim (fun h => absurd h.1 hr) And.right
  have hstage : SameStage s.conn t.conn := .of_state h.frame.state
  exact ⟨hstage.ne_closed, hstage.version, by rw [h.frame.kex], by rw [h.frame.kx],
    h.frame.outKeys, by rw [h.frame.inDir], h.frame.pend, [_], hlog, by simp [Event.KeepsKeys]⟩

/-- The end of a connection whose keys are not those that count: only its `DISCONNECT`
matters. -/
theorem Farewell.keysKept (h : Farewell s t)
    (hsession : s.conn.kx.sessionId = (ledger s.log).exchanges.head?.map fun x => x.hash E)
    (hpast : Along (KeysFit E) s.log)
    (hsent : ∀ reason msg, SentUnder E (disconnectPayload reason msg) s.conn s.log) :
    KeysKept E t where
  session := by
    obtain ⟨es, hes, hkeeps⟩ := h.keepsKeys.log
    rw [hes, ledger_append hkeeps, h.keepsKeys.sessionId]
    exact hsession
  past := by
    cases h with
    | already => exact hpast
    | sent _ h =>
        rcases h.log_eq with ⟨-, hlog⟩ | ⟨-, hlog⟩
        · rw [hlog]
          exact ⟨keysFit_sent (hsent _ _), hpast⟩
        · rw [hlog]
          exact ⟨keysFit_other (by simp) (by simp), hpast⟩
  start ht := absurd (h.closed.symm.trans ht) (by decide)
  now hopen := absurd h.closed hopen

theorem ExchangeEnds.keysKept (hx : Exchanges E s q x)
    (h : ExchangeEnds E x (s.conn.kx.sessionId.getD (x.hash E)) (s.exchanged E x) t)
    (hs : KeysKept E s) : KeysKept E t := by
  have hs₁ := hx.keysKept hs
  cases h with
  | unsigned hend => exact hs₁.sends hend.sends (by decide)
  | replyLost _ hreply => exact hs₁.sends hreply.sends (by rw [x.msgOf_reply]; decide)
  | newKeysLost hr hreply hkeys =>
      have hkept := (hx.replied_keys hs hreply).kept
      have hlost := hkeys.keepsKeys_of_lost hr
      refine hkept.keeps hlost fun hopen => ?_
      exact (hkept.now (hlost.isOpen hopen)).2.congr hkeys.frame.kex ⟨_, hkeys.frame.kx⟩
  | newKeysFailed hreply hkeys hcause hend =>
      have hreplied := hx.replied_keys hs hreply
      obtain ⟨hlog, hpast, hledger⟩ := hreplied.past hkeys
      refine hend.keysKept ?_ hpast fun reason msg => ?_
      · rw [hkeys.frame.kx, hledger]
        exact hreplied.kept.session
      · exact .unset (msgOf_disconnectPayload reason msg) hlog hcause hkeys.frame.outKeys
  | switched hreply hkeys => exact (hx.replied_keys hs hreply).switched hx.k_length hkeys

/-! ## `NEWKEYS` -/

theorem HandlesNewKeys.keysKept {packet mac : Bytes} (harrives : Arrives E s q packet mac)
    (hmsg : msgOf q = msgNewkeys) (h : HandlesNewKeys (s.dispatched q packet mac) t)
    (hs : KeysKept E s) : KeysKept E t := by
  obtain ⟨hstate, -⟩ := hs.now harrives.ne_closed
  have hledger : ledger (s.dispatched q packet mac).log =
      { ledger s.log with arrived := (ledger s.log).arrived + 1 } := if_pos hmsg
  have hpast : Along (KeysFit E) (s.dispatched q packet mac).log :=
    ⟨keysFit_dispatch hstate.inward, hs.past⟩
  have hsession : s.conn.kx.sessionId =
      (ledger (s.dispatched q packet mac).log).exchanges.head?.map fun x => x.hash E := by
    rw [hledger]
    exact hs.session
  have hout : Keyed (outKeys E) E (ledger (s.dispatched q packet mac).log)
      (ledger (s.dispatched q packet mac).log).renewals.length s.conn.outDir.keys := by
    rw [hledger]
    exact hstate.out.mono List.prefix_rfl List.prefix_rfl
  cases h with
  | unexpected _ hend | failed _ hend =>
      exact hend.keysKept hsession hpast fun _ _ => .current hout
  | applied hkex =>
      obtain ⟨hcount, hkeyed⟩ := hstate.waiting hkex
      refine ⟨hsession, hpast, fun _ => by simp [Conn.installed], fun _ => ?_⟩
      refine ⟨?_, fun h => by cases h⟩
      refine ⟨hout, ?_, by simp [Conn.installed], fun _ => ?_⟩
      · rw [Conn.installed_keys, hledger]
        exact hkeyed.mono List.prefix_rfl List.prefix_rfl
      · rw [hledger]
        exact hcount

/-! ## Every run -/

theorem Step.keysKept (h : Step E s t) (hs : KeysKept E s) : KeysKept E t := by
  cases h.kexStep with
  | aside h => exact h.keysKept hs
  | acceptVersion line hstate =>
      have hkeeps : KeepsKeys s
          ⟨{ s.conn with clientVersion := line, state := .kex, kex := .waitKexinit }, s.log⟩ := by
        refine ⟨fun _ => ?_, nofun, ?_, rfl, rfl, rfl, rfl, [], rfl, by simp⟩
        · rw [hstate]
          decide
        · exact iff_of_false nofun (hs.start hstate)
      exact hs.keeps_of_ne_waitDh hkeeps nofun
  | firstKexInit _ hkex _ h =>
      refine hs.keeps_of_ne_waitDh h.keepsKeys ?_
      rw [h.kex, hkex]
      decide
  | firstKexInitFailed hkex _ h =>
      obtain ⟨server, sent, hsends⟩ := h.sends
      refine hs.keeps_of_ne_waitDh h.keepsKeys ?_
      rw [show t.conn.kex = s.conn.kex from hsends.frame.kex, hkex]
      decide
  | kexInit harrives hmsg hend => exact hend.keysKept harrives hmsg hs
  | exchange x hx hend => exact hend.keysKept hx hs
  | newKeys harrives hmsg hend => exact hend.keysKept harrives hmsg hs

/-- **Key schedule.**  In every run, with any ciphers and MACs and whatever fails: a packet is
sent under the keys of the exchange that the last `NEWKEYS` sent belongs to, and received
under those of the exchange with the number of the last `NEWKEYS` received; `NEWKEYS` itself
goes under the keys before it.  The session id is the first exchange hash computed.  Only
the `DISCONNECT` behind a `NEWKEYS` whose key could not be set goes under the keys before. -/
theorem key_schedule {s : Server} (h : Reachable E s) :
    (s.link.conn.kx.sessionId =
      (ledger s.link.log).exchanges.head?.map fun x => x.hash E) ∧
    (∀ newer older p c, s.link.log = newer ++ .sent p c :: older → SentUnder E p c older) ∧
    (∀ newer older p packet mac c, s.link.log = newer ++ .dispatch p packet mac c :: older →
      Keyed (inKeys E) E (ledger older) (ledger older).arrived c.inDir.keys) ∧
    (s.link.conn.state ≠ .closed →
      Keyed (outKeys E) E (ledger s.link.log) (ledger s.link.log).renewals.length
        s.link.conn.outDir.keys ∧
      Keyed (inKeys E) E (ledger s.link.log) (ledger s.link.log).arrived
        s.link.conn.inDir.keys) := by
  have hkept : KeysKept E s.link.toSession := h.invariant keysKept_new fun _ _ => Step.keysKept
  refine ⟨hkept.session, fun newer older p c hlog => ?_,
    fun newer older p packet mac c hlog => ?_, fun hopen => ?_⟩
  · exact (along_iff.mp hkept.past newer _ older hlog).1 p c rfl
  · exact (along_iff.mp hkept.past newer _ older hlog).2 p packet mac c rfl
  · exact ⟨(hkept.now hopen).1.out, (hkept.now hopen).1.inward⟩


/-- The first exchange of a client, with `NEWKEYS` of both sides. -/
theorem key_schedule_first : ∃ s, Reachable (plainEnv fun _ _ => true) s ∧
    Keyed (outKeys (plainEnv fun _ _ => true)) (plainEnv fun _ _ => true) (ledger s.link.log) 1
      s.link.conn.outDir.keys ∧
    Keyed (inKeys (plainEnv fun _ _ => true)) (plainEnv fun _ _ => true) (ledger s.link.log) 1
      s.link.conn.inDir.keys := by
  obtain ⟨s, hreach, hopen, hrenewals, harrived⟩ :=
    exists_reachable (E := plainEnv fun _ _ => true) (P := fun s => s.link.conn.state ≠ .closed ∧
      (ledger s.link.log).renewals.length = 1 ∧ (ledger s.link.log).arrived = 1)
      [.accept 1] [.data clientKex] (by decide +kernel)
  obtain ⟨-, -, -, hkeys⟩ := key_schedule hreach
  obtain ⟨hout, hin⟩ := hkeys hopen
  rw [hrenewals] at hout
  rw [harrived] at hin
  exact ⟨s, hreach, hout, hin⟩

/-! ### A key that cannot be set -/

/-- A platform that sets no AES key. -/
def keylessEnv : Env := { plainEnv fun _ _ => true with aesSetKeyOk := fun _ => false }

/-- The last packet was sent in the clear behind the first `NEWKEYS`. -/
def clearBehindNewKeys : List Event → Bool
  | .sent _ c :: log => (ledger log).renewals.length = 1 && !c.outDir.active
  | _ => false

/-- The `DISCONNECT` of a connection whose key could not be set goes in the clear, behind
the `NEWKEYS` that announced the key. -/
theorem disconnect_behind_newKeys : ∃ s newer older p c, Reachable keylessEnv s ∧
    s.link.log = newer ++ .sent p c :: older ∧ (ledger older).renewals.length = 1 ∧
      ¬ Keyed (outKeys keylessEnv) keylessEnv (ledger older) (ledger older).renewals.length
        c.outDir.keys := by
  obtain ⟨s, hreach, hclear⟩ := exists_reachable
    (P := fun s => clearBehindNewKeys s.link.log = true) (E := keylessEnv)
    [.accept 1] [.data clientKex] (by decide +kernel)
  unfold clearBehindNewKeys at hclear
  split at hclear
  · next p c older hlog =>
      simp only [Bool.and_eq_true, decide_eq_true_eq, Bool.not_eq_true'] at hclear
      obtain ⟨hrenewals, hactive⟩ := hclear
      have hkeys : c.outDir.keys = none := if_neg (by rw [hactive]; decide)
      refine ⟨s, [], older, p, c, hreach, hlog, hrenewals, fun hkeyed => ?_⟩
      rw [hrenewals, hkeys] at hkeyed
      cases hkeyed
  · cases hclear

end EfiSshServer
