import EfiSshServer.Packet

/-!
# Key exchange

`SendKexInit`, `Negotiate`, `DoKexDh` and `ApplyNewKeys`, with the name tables
and the key derivation they use.  All six keys are derived before anything
switches; the outgoing direction switches right after the server's `NEWKEYS`,
the incoming keys wait in `Conn.pend` for the client's.
-/

namespace EfiSshServer

open StateProgram LinkM

/-! ## `SendKexInit` -/

def kexInitPayload (cookie : Bytes) : WBuf :=
  (((wInit sshPlBuf).wByte msgKexinit).wBytes cookie
    |>.wCStr kexAlgs |>.wCStr hostkeyAlgs |>.wCStr encAlgs |>.wCStr encAlgs
    |>.wCStr macAlgs |>.wCStr macAlgs |>.wCStr compAlgs |>.wCStr compAlgs
    |>.wCStr "" |>.wCStr "").wByte 0 |>.wU32 0

theorem msgOf_kexInitPayload (cookie : Bytes) :
    msgOf (kexInitPayload cookie).data = msgKexinit := by
  rw [kexInitPayload]
  refine msgOf_data ?_
  apply WBuf.first_wU32
  apply WBuf.first_wByte
  apply WBuf.first_wCStr
  apply WBuf.first_wCStr
  apply WBuf.first_wCStr
  apply WBuf.first_wCStr
  apply WBuf.first_wCStr
  apply WBuf.first_wCStr
  apply WBuf.first_wCStr
  apply WBuf.first_wCStr
  apply WBuf.first_wCStr
  apply WBuf.first_wCStr
  apply WBuf.first_wBytes
  exact first_message _

/-- The server's `KEXINIT` fits into its buffer, and into a packet. -/
theorem kexInitPayload_fits {cookie : Bytes} (hcookie : cookie.length = 16) :
    (kexInitPayload cookie).err = false ∧
      (kexInitPayload cookie).data.length + 64 ≤ sshMaxPacket := by
  have hstart : (((wInit sshPlBuf).wByte msgKexinit).wBytes cookie).Holds sshPlBuf 17 := by
    rw [show (17 : ℕ) = 0 + 1 + cookie.length by rw [hcookie]]
    refine WBuf.Holds.wBytes (WBuf.Holds.wBytes (WBuf.holds_wInit (by decide)) ?_) ?_
    · decide
    · rw [hcookie]
      decide
  have hlists := (((((((((hstart.wCStr (s := kexAlgs) (by decide)).wCStr (s := hostkeyAlgs)
    (by decide)).wCStr (s := encAlgs) (by decide)).wCStr (s := encAlgs) (by decide)).wCStr
    (s := macAlgs) (by decide)).wCStr (s := macAlgs) (by decide)).wCStr (s := compAlgs)
    (by decide)).wCStr (s := compAlgs) (by decide)).wCStr (s := "") (by decide)).wCStr (s := "")
    (by decide)
  have hend := (hlists.wBytes (x := [0]) (by decide)).wBytes (x := putU32 0) (by decide)
  refine ⟨hend.err, ?_⟩
  rw [kexInitPayload, WBuf.wU32, WBuf.wByte, hend.length]
  decide

/-- The payloads that `SendKexInit` builds. -/
def IsServerKexInit (p : Bytes) : Prop :=
  ∃ cookie : Bytes, cookie.length = 16 ∧ p = (kexInitPayload cookie).data

theorem IsServerKexInit.msgOf {p : Bytes} (h : IsServerKexInit p) : msgOf p = msgKexinit := by
  obtain ⟨cookie, -, rfl⟩ := h
  exact msgOf_kexInitPayload cookie

theorem IsServerKexInit.length_le {p : Bytes} (h : IsServerKexInit p) :
    p.length ≤ sshMaxPacket := by
  obtain ⟨cookie, hcookie, rfl⟩ := h
  exact (Nat.le_add_right _ 64).trans (kexInitPayload_fits hcookie).2

def sendKexInit (E : Env) : LinkM Int := do
  let some cookie ← ask (.random 16) (E.random · 16) | noKexInit
  let b := kexInitPayload cookie.toList
  if b.err then return ← noKexInit
  if !(← ask (.alloc b.data.length) (E.alloc · b.data.length)) then
    update fun c => { c with kx := { c.kx with serverKexInit := none } }
    return ← noKexInit
  update fun c =>
    { c with kx := { c.kx with serverKexInit := some b.data, kexInitSent := true } }
  sendPacket E b.data
where
  /-- Return -1 before there is a packet. -/
  noKexInit : LinkM Int := do
    record fun _ => .kexInitFailed
    return -1

/-! ## `Negotiate` -/

def encKeyLen (n : Bytes) : ℕ :=
  if nameIs n "aes128-ctr" then 16 else if nameIs n "aes192-ctr" then 24 else 32

def macTypeOf (n : Bytes) : MacType := if nameIs n "hmac-sha2-512" then .sha512 else .sha256

/-- The fields of a `KEXINIT` behind its cookie. -/
structure KexInitFields where
  kex : Bytes
  hk : Bytes
  encCs : Bytes
  encSc : Bytes
  macCs : Bytes
  macSc : Bytes
  compCs : Bytes
  compSc : Bytes
  firstFollows : UInt8
  err : Bool

def readKexInit (b : Bytes) : KexInitFields :=
  let kex := rStr (rInit b)
  let hk := rStr kex.rest
  let encCs := rStr hk.rest
  let encSc := rStr encCs.rest
  let macCs := rStr encSc.rest
  let macSc := rStr macCs.rest
  let compCs := rStr macSc.rest
  let compSc := rStr compCs.rest
  let langCs := rStr compSc.rest
  let langSc := rStr langCs.rest
  let firstFollows := rByte langSc.rest
  let reserved := rU32 firstFollows.rest
  { kex := kex.val, hk := hk.val, encCs := encCs.val, encSc := encSc.val, macCs := macCs.val,
    macSc := macSc.val, compCs := compCs.val, compSc := compSc.val,
    firstFollows := firstFollows.val, err := reserved.rest.err }

/-- The guess announced by `first_kex_packet_follows` was wrong. -/
def wrongGuess (f : KexInitFields) (pick : Bytes) : Bool :=
  firstEntryLen f.kex ≠ pick.length || f.kex.take pick.length ≠ pick ||
    !nameIs (f.hk.take (firstEntryLen f.hk)) "ssh-ed25519"

def updateKx (f : Exchange → Exchange) : LinkM Unit := update fun c => { c with kx := f c.kx }

def negotiate (E : Env) : LinkM Int := do
  let payload ← deref (← conn).kx.clientKexInit
  if payload.length < 17 then return ← fail E discProtocolError "short KEXINIT"
  let f := readKexInit (payload.drop 17)
  if f.err then return ← fail E discProtocolError "bad KEXINIT"
  let some pick := pickAlg f.kex kexAlgs
    | fail E discKeyExchangeFailed "no common kex algorithm (need curve25519-sha256)"
  updateKx fun k =>
    { k with ignoreNextKexPacket := f.firstFollows ≠ 0 && wrongGuess f pick }
  let some _ := pickAlg f.hk hostkeyAlgs
    | fail E discKeyExchangeFailed "no common host key algorithm (need ssh-ed25519)"
  let some pick := pickAlg f.encCs encAlgs
    | fail E discKeyExchangeFailed "no common cipher (need aes-ctr)"
  updateKx fun k => { k with nextEncKeyLenIn := encKeyLen pick }
  let some pick := pickAlg f.encSc encAlgs
    | fail E discKeyExchangeFailed "no common cipher (need aes-ctr)"
  updateKx fun k => { k with nextEncKeyLenOut := encKeyLen pick }
  let some pick := pickAlg f.macCs macAlgs
    | fail E discKeyExchangeFailed "no common MAC (need hmac-sha2-256)"
  updateKx fun k => { k with nextMacTypeIn := macTypeOf pick }
  let some pick := pickAlg f.macSc macAlgs
    | fail E discKeyExchangeFailed "no common MAC (need hmac-sha2-256)"
  updateKx fun k => { k with nextMacTypeOut := macTypeOf pick }
  if pickAlg f.compCs compAlgs = none ∨ pickAlg f.compSc compAlgs = none then
    return ← fail E discKeyExchangeFailed "compression not supported"
  return 0

/-- The `KEXINIT` `q` is complete, and each of its lists has an entry that the server
also lists. -/
structure Acceptable (q : Bytes) : Prop where
  long : 17 ≤ q.length
  complete : (readKexInit (q.drop 17)).err = false
  kex : pickAlg (readKexInit (q.drop 17)).kex kexAlgs ≠ none
  hk : pickAlg (readKexInit (q.drop 17)).hk hostkeyAlgs ≠ none
  encCs : pickAlg (readKexInit (q.drop 17)).encCs encAlgs ≠ none
  encSc : pickAlg (readKexInit (q.drop 17)).encSc encAlgs ≠ none
  macCs : pickAlg (readKexInit (q.drop 17)).macCs macAlgs ≠ none
  macSc : pickAlg (readKexInit (q.drop 17)).macSc macAlgs ≠ none
  compCs : pickAlg (readKexInit (q.drop 17)).compCs compAlgs ≠ none
  compSc : pickAlg (readKexInit (q.drop 17)).compSc compAlgs ≠ none

/-- The choices of `Negotiate` for the client's `KEXINIT` `q`: of each list the first
entry that the server also lists. -/
structure Chosen (q : Bytes) (k : Exchange) : Prop where
  acceptable : Acceptable q
  guess : ∃ pick, pickAlg (readKexInit (q.drop 17)).kex kexAlgs = some pick ∧
    k.ignoreNextKexPacket = ((readKexInit (q.drop 17)).firstFollows ≠ 0 &&
      wrongGuess (readKexInit (q.drop 17)) pick)
  keyLenIn : (pickAlg (readKexInit (q.drop 17)).encCs encAlgs).map encKeyLen =
    some k.nextEncKeyLenIn
  keyLenOut : (pickAlg (readKexInit (q.drop 17)).encSc encAlgs).map encKeyLen =
    some k.nextEncKeyLenOut
  macIn : (pickAlg (readKexInit (q.drop 17)).macCs macAlgs).map macTypeOf = some k.nextMacTypeIn
  macOut : (pickAlg (readKexInit (q.drop 17)).macSc macAlgs).map macTypeOf = some k.nextMacTypeOut

/-! ## `DoKexDh` -/

/-- What `HashStr` feeds to the hash. -/
def hashStr (d : Bytes) : Bytes := putU32 (UInt32.ofNat d.length) ++ d

/-- The extension loop of `DeriveKey`: hash everything so far until `need` bytes
are there.  Each round adds 32 bytes. -/
def extendKey (E : Env) (kMp h : Bytes) (need : ℕ) : ℕ → Bytes → Bytes
  | 0, tmp => tmp
  | rounds + 1, tmp =>
      if tmp.length < need then
        extendKey E kMp h need rounds (tmp ++ (E.sha256 (kMp ++ h ++ tmp)).toList)
      else tmp

def deriveKey (E : Env) (sessionId kMp h : Bytes) (letter : Char) (need : ℕ) : Bytes :=
  let first := (E.sha256 (kMp ++ h ++ [UInt8.ofNat letter.toNat] ++ sessionId)).toList
  (extendKey E kMp h need need first).take need

/-- The host key blob `K_S`. -/
def hostKeyBlob (hostPub : Bytes) : Bytes :=
  (((wInit (4 + 11 + 4 + 32)).wCStr "ssh-ed25519").wStr hostPub).data

theorem length_hostKeyBlob_le (hostPub : Bytes) : (hostKeyBlob hostPub).length ≤ 51 :=
  have hname := WBuf.length_wStr_le (b := wInit 51) rfl (Nat.zero_le _) (ascii "ssh-ed25519")
  (WBuf.length_wStr_le hname.1 hname.2 hostPub).2

/-- The exchange hash `H`. -/
def exchangeHash (E : Env) (clientVersion clientKexInit serverKexInit ks qc qs kMp : Bytes) :
    Bytes :=
  (E.sha256 (hashStr clientVersion ++ hashStr (ascii sshServerVersion) ++ hashStr clientKexInit ++
    hashStr serverKexInit ++ hashStr ks ++ hashStr qc ++ hashStr qs ++ kMp)).toList

def kexdhReplyPayload (ks qs sig : Bytes) : WBuf :=
  (((wInit sshPlBuf).wByte msgKexdhReply).wStr ks |>.wStr qs |>.wU32 (4 + 11 + 4 + 64)
    |>.wCStr "ssh-ed25519" |>.wStr sig)

/-- The reply fits into its buffer. -/
theorem kexdhReplyPayload_eq {ks qs sig : Bytes} (hks : ks.length ≤ 51) (hqs : qs.length = 32)
    (hsig : sig.length = 64) :
    kexdhReplyPayload ks qs sig =
      ⟨msgKexdhReply :: (hashStr ks ++ hashStr qs ++ putU32 83 ++ hashStr (ascii "ssh-ed25519") ++
        hashStr sig), sshPlBuf, false, false⟩ := by
  have hname : (ascii "ssh-ed25519").length = 11 := by decide
  rw [kexdhReplyPayload, show (wInit sshPlBuf).wByte msgKexdhReply = ⟨[msgKexdhReply], sshPlBuf,
    false, false⟩ from rfl, WBuf.wStr_eq, WBuf.wStr_eq, WBuf.wU32_eq, WBuf.wCStr,
    WBuf.wStr_eq, WBuf.wStr_eq]
  · simp [hashStr]
  all_goals
    simp only [List.length_append, List.length_cons, List.length_nil, length_putU32, hname,
      sshPlBuf, sshMaxPacket, rtInsaneLen]
    omega

theorem length_kexdhReplyPayload {ks qs sig : Bytes} (hks : ks.length ≤ 51)
    (hqs : qs.length = 32) (hsig : sig.length = 64) :
    (kexdhReplyPayload ks qs sig).err = false ∧
      (kexdhReplyPayload ks qs sig).data.length + 64 ≤ sshMaxPacket := by
  have hname : (ascii "ssh-ed25519").length = 11 := by decide
  rw [kexdhReplyPayload_eq hks hqs hsig]
  refine ⟨rfl, ?_⟩
  simp only [hashStr, List.length_append, List.length_cons, length_putU32, hname, hqs, hsig,
    sshMaxPacket]
  omega

def newkeysPayload : Bytes := ((wInit sshPlBuf).wByte msgNewkeys).data

theorem msgOf_kexdhReplyPayload (ks qs sig : Bytes) :
    msgOf (kexdhReplyPayload ks qs sig).data = msgKexdhReply := by
  rw [kexdhReplyPayload]
  refine msgOf_data ?_
  apply WBuf.first_wStr
  apply WBuf.first_wCStr
  apply WBuf.first_wU32
  apply WBuf.first_wStr
  apply WBuf.first_wStr
  exact first_message _

@[simp] theorem msgOf_newkeysPayload : msgOf newkeysPayload = msgNewkeys := by
  rw [newkeysPayload]
  exact msgOf_data (first_message _)

/-- The `KEXDH_INIT` `q` carries the client's public key `qc`. -/
def CarriesKey (q qc : Bytes) : Prop :=
  (rStr (rInit (q.drop 1))).rest.err = false ∧ (rStr (rInit (q.drop 1))).val = qc ∧ qc.length = 32

instance decidableCarriesKey (q qc : Bytes) : Decidable (CarriesKey q qc) :=
  inferInstanceAs (Decidable (_ ∧ _ ∧ _))

namespace Transcript

/-- `K` as an `mpint`. -/
def kMp (x : Transcript) : Bytes := ((wInit (4 + 33)).wMpint x.k).data

/-- `H`. -/
def hash (x : Transcript) (E : Env) : Bytes :=
  exchangeHash E x.clientVersion x.clientKexInit x.serverKexInit x.ks x.qc x.qs x.kMp

/-- The reply, signed with the host key of `c`. -/
def reply (x : Transcript) (E : Env) (c : Conn) : Bytes :=
  (kexdhReplyPayload x.ks x.qs (E.sign c.hostSeed c.hostPub (x.hash E))).data

theorem msgOf_reply (x : Transcript) (E : Env) (c : Conn) : msgOf (x.reply E c) = msgKexdhReply :=
  msgOf_kexdhReplyPayload _ _ _

end Transcript

/-- The four curve calls of `DoKexDh`: the server's public key and the shared
secret. -/
def curveExchange (E : Env) (qc : Bytes) : LinkM (Option (Bytes × Bytes)) := do
  let some mine ← ask .curveMakeKey E.curveMakeKey | return none
  if !(← ask .curveExport E.curveExportOk) then return none
  if !(← ask .curveImport E.curveImportOk) then return none
  if !(← ask .curveSharedSecret E.curveSharedOk) then return none
  let k := E.curveShared mine qc
  if k.length ≠ 32 then return none
  return some ((E.curvePublic mine).toList, k)

/-- The end of `DoKexDh`: send the reply and `NEWKEYS`, switch the outgoing
direction and keep the incoming keys. -/
def switchKeys (E : Env) (reply : WBuf) (sessionId kMp h : Bytes) : LinkM Int := do
  let derive := deriveKey E sessionId kMp h
  if reply.err then return -1
  if (← sendPacket E reply.data) ≠ 0 then return -1
  if (← sendPacket E newkeysPayload) ≠ 0 then return -1
  if !(← ask .aesSetKey E.aesSetKeyOk) then
    return ← fail E discKeyExchangeFailed "aes key"
  update fun c => { c with
    outDir := { c.outDir with
      aes := ⟨(derive 'D' 32).take c.kx.nextEncKeyLenOut, derive 'B' 16, 0⟩
      macKey := derive 'F' 64
      macType := c.kx.nextMacTypeOut
      active := true }
    pend := {
      pendKey := derive 'C' 32
      pendIv := derive 'A' 16
      pendMac := derive 'E' 64
      pendKeyLen := c.kx.nextEncKeyLenIn
      pendMacType := c.kx.nextMacTypeIn }
    kex := .waitNewkeys }
  return 0

def doKexDh (E : Env) (payload : Bytes) : LinkM Int := do
  let qc := rStr (rInit (payload.drop 1))
  if qc.rest.err = true ∨ qc.val.length ≠ 32 then
    return ← fail E discKeyExchangeFailed "bad KEXDH_INIT"
  let some (qs, k) ← curveExchange E qc.val
    | fail E discKeyExchangeFailed "curve25519 failure"
  let kMp := (wInit (4 + 33)).wMpint k
  if kMp.err then return ← fail E discKeyExchangeFailed "mpint"
  let c ← conn
  let ks := hostKeyBlob c.hostPub
  let clientKexInit ← deref c.kx.clientKexInit
  let serverKexInit ← deref c.kx.serverKexInit
  let h := exchangeHash E c.clientVersion clientKexInit serverKexInit ks qc.val qs kMp.data
  record (.exchange ⟨c.clientVersion, ascii sshServerVersion, clientKexInit, serverKexInit, ks,
    qc.val, qs, k⟩)
  let sessionId := c.kx.sessionId.getD h
  updateKx fun k => { k with sessionId := some sessionId }
  let sig := E.sign c.hostSeed c.hostPub h
  if !(← ask .ed25519Sign E.signOk) ∨ sig.length ≠ 64 then
    return ← fail E discKeyExchangeFailed "signature failure"
  switchKeys E (kexdhReplyPayload ks qs sig) sessionId kMp.data h

/-! ## `ApplyNewKeys` -/

def applyNewKeys (E : Env) : LinkM Int := do
  if !(← ask .aesSetKey E.aesSetKeyOk) then
    return ← fail E discKeyExchangeFailed "aes key"
  update fun c => { c with
    inDir := { c.inDir with
      aes := ⟨c.pend.pendKey.take c.pend.pendKeyLen, c.pend.pendIv, 0⟩
      macKey := c.pend.pendMac
      macType := c.pend.pendMacType
      active := true }
    pend := { c.pend with
      pendKey := List.replicate 32 0
      pendMac := List.replicate 64 0 }
    kex := .idle
    state := if c.state = .kex then .auth else c.state }
  return 0

end EfiSshServer
