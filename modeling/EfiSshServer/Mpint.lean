import EfiSshServer.Reading
import EfiSshServer.Lib.BigEndian

/-!
# Multiple precision integers

`WMpint` turns an unsigned big-endian number into an `mpint`: a length word, and the
shortest two's complement form of the number, `mpintBody`.  `memcpy` copies its bytes in
one go, so a number of more than `RT_INSANE_LEN` bytes is not written (`wMpint_long`).
-/

namespace EfiSshServer

open BigEndian

/-- The bytes of an `mpint` behind its length word. -/
def mpintBody (d : Bytes) : Bytes :=
  let s := d.dropWhile (· = 0)
  if 0x80 ≤ s.headD 0 then 0 :: s else s

theorem mpintBody_eq (d : Bytes) :
    mpintBody d = if 0x80 ≤ (d.dropWhile (· = 0)).headD 0 then 0 :: d.dropWhile (· = 0)
      else d.dropWhile (· = 0) := rfl

theorem isMinimal_mpintBody (d : Bytes) : IsMinimal (mpintBody d) := isMinimal_strip d

theorem unsigned_mpintBody (d : Bytes) : unsigned (mpintBody d) = unsigned d := by
  rw [mpintBody_eq]
  split
  · rw [unsigned_zero_cons, unsigned_dropWhile]
  · exact unsigned_dropWhile d

theorem mpintBody_eq_iff {d d' : Bytes} :
    mpintBody d = mpintBody d' ↔ unsigned d = unsigned d' := by
  constructor
  · intro h
    rw [← unsigned_mpintBody d, h, unsigned_mpintBody d']
  · intro h
    refine (isMinimal_mpintBody d).inj (isMinimal_mpintBody d') ?_
    rwa [unsigned_mpintBody, unsigned_mpintBody]

theorem mpintBody_eq_nil_iff {d : Bytes} : mpintBody d = [] ↔ unsigned d = 0 := by
  have hnil : mpintBody [] = [] := rfl
  rw [← hnil, mpintBody_eq_iff, unsigned_nil]

theorem length_mpintBody_le (d : Bytes) : (mpintBody d).length ≤ d.length + 1 := by
  have hstrip := (List.dropWhile_suffix (fun x : UInt8 => decide (x = 0)) (l := d)).length_le
  rw [mpintBody_eq]
  split
  · rw [List.length_cons]
    omega
  · omega

/-- The test of the top bit. -/
private theorem topBit_iff {x : UInt8} : x &&& 0x80 ≠ 0 ↔ 0x80 ≤ x := by
  have hall : ∀ v : BitVec 8, v &&& 0x80#8 ≠ 0#8 ↔ 0x80#8 ≤ v := by decide +kernel
  rw [Ne, ← UInt8.toBitVec_inj]
  exact hall x.toBitVec

theorem wMpint_eq {b : WBuf} {d : Bytes} (hok : b.err = false) (hrunning : b.halted = false)
    (hsane : (d.dropWhile (· = 0)).length ≤ rtInsaneLen)
    (hroom : b.data.length + (d.length + 5) ≤ b.cap) :
    b.wMpint d = ⟨b.data ++ hashStr (mpintBody d), b.cap, false, false⟩ := by
  obtain ⟨data, cap, err, halted⟩ := b
  cases (hok : err = false)
  cases (hrunning : halted = false)
  have hroom : data.length + (d.length + 5) ≤ cap := hroom
  have hbody := length_mpintBody_le d
  rw [hashStr, WBuf.wMpint]
  simp only
  by_cases htop : 0x80 ≤ (d.dropWhile (· = 0)).headD 0
  · have heq : mpintBody d = 0 :: d.dropWhile (· = 0) := if_pos htop
    rw [heq, List.length_cons] at hbody ⊢
    rw [if_pos (topBit_iff.mpr htop), WBuf.wU32_eq _ (by omega), WBuf.wByte,
      WBuf.wBytes_eq (by rw [List.length_append, length_putU32, List.length_singleton]; omega)
        (by rw [List.length_singleton]; decide),
      WBuf.wBytes_eq (by
        rw [List.length_append, List.length_append, length_putU32, List.length_singleton]
        omega) hsane]
    have hword : UInt32.ofNat (d.dropWhile (· = 0)).length + 1 =
        UInt32.ofNat ((d.dropWhile (· = 0)).length + 1) := (UInt32.ofNat_add _ 1).symm
    rw [hword, List.append_assoc, List.append_assoc, List.singleton_append]
  · have heq : mpintBody d = d.dropWhile (· = 0) := if_neg htop
    rw [heq] at hbody ⊢
    rw [if_neg fun hand => htop (topBit_iff.mp hand), WBuf.wStr_eq (by omega) hsane]

theorem length_mpintBody_lt {d : Bytes} (hsane : (d.dropWhile (· = 0)).length ≤ rtInsaneLen) :
    (mpintBody d).length < 2 ^ 32 := by
  rw [rtInsaneLen] at hsane
  rw [mpintBody_eq]
  split
  · rw [List.length_cons]
    omega
  · omega

/-- What `WMpint` writes: the length of the shortest two's complement form, and this
form. -/
theorem wMpint_canonical (b : WBuf) (d : Bytes) (hok : b.err = false) (hrunning : b.halted = false)
    (hsane : (d.dropWhile (· = 0)).length ≤ rtInsaneLen)
    (hroom : b.data.length + (d.length + 5) ≤ b.cap) :
    (∃ word body, b.wMpint d = ⟨b.data ++ (putU32 word ++ body), b.cap, false, false⟩ ∧
      word.toNat = body.length ∧
      signed body = unsigned d ∧
      (∀ other : Bytes, signed other = unsigned d → body.length ≤ other.length) ∧
      (∀ rest, body = 0 :: rest → ∃ y ys, rest = y :: ys ∧ 0x80 ≤ y) ∧
      (body = [] ↔ unsigned d = 0)) ∧
    (∀ d' : Bytes, (d'.dropWhile (· = 0)).length ≤ rtInsaneLen →
      b.data.length + (d'.length + 5) ≤ b.cap →
      ((b.wMpint d).data = (b.wMpint d').data ↔ unsigned d = unsigned d')) ∧
    (∀ k : Bytes, k.length = 32 →
      ((wInit (4 + 33)).wMpint k).err = false ∧ ((wInit (4 + 33)).wMpint k).halted = false) := by
  have hminimal := isMinimal_mpintBody d
  refine ⟨⟨_, mpintBody d, wMpint_eq hok hrunning hsane hroom, ?_, ?_, ?_, ?_,
    mpintBody_eq_nil_iff⟩, ?_, ?_⟩
  · rw [UInt32.toNat_ofNat', Nat.mod_eq_of_lt (length_mpintBody_lt hsane)]
  · rw [hminimal.signed_eq, unsigned_mpintBody]
  · intro other hother
    exact hminimal.length_le (by rw [hother, unsigned_mpintBody])
  · intro rest hrest
    rw [hrest] at hminimal
    match rest, hminimal with
    | [], h => exact absurd rfl h.1
    | y :: ys, h => exact ⟨y, ys, rfl, h.2 rfl⟩
  · intro d' hsane' hroom'
    rw [wMpint_eq hok hrunning hsane hroom, wMpint_eq hok hrunning hsane' hroom',
      ← mpintBody_eq_iff]
    constructor
    · intro heq
      -- the length in front makes the bodies come apart
      have hstr : hashStr (mpintBody d) = hashStr (mpintBody d') := List.append_cancel_left heq
      exact (List.append_inj hstr rfl).2
    · exact fun heq => by rw [heq]
  · intro k hk
    have hfits : (wInit (4 + 33)).data.length + (k.length + 5) ≤ (wInit (4 + 33)).cap := by
      rw [hk]
      decide
    have hshort : (k.dropWhile (· = 0)).length ≤ rtInsaneLen :=
      (List.dropWhile_suffix _).length_le.trans (by rw [hk]; decide)
    rw [wMpint_eq rfl rfl hshort hfits]
    exact ⟨rfl, rfl⟩

/-- A secret with a leading zero byte and its top bit set behind it. -/
theorem wMpint_canonical_secret :
    ((wInit (4 + 33)).wMpint (0 :: List.replicate 31 0xFF)).data =
        ((wInit (4 + 33)).wMpint (List.replicate 31 0xFF)).data ∧
      ((wInit (4 + 33)).wMpint (List.replicate 32 0xFF)).err = false :=
  have hcanonical := wMpint_canonical (wInit (4 + 33)) (0 :: List.replicate 31 0xFF) rfl rfl
    (by decide) (by decide)
  ⟨(hcanonical.2.1 _ (by decide) (by decide)).mpr (unsigned_zero_cons _),
    (hcanonical.2.2 _ rfl).1⟩

/-- Of a number that is too long for `memcpy` the writer leaves the length word. -/
theorem wMpint_halts {cap : ℕ} {d : Bytes} (hhead : d.head? = some 1)
    (hinsane : rtInsaneLen < d.length) (hroom : 4 + d.length ≤ cap) :
    (wInit cap).wMpint d = ⟨putU32 (UInt32.ofNat d.length), cap, false, true⟩ := by
  obtain ⟨rest, rfl⟩ : ∃ rest, d = 1 :: rest := by
    cases d with
    | nil => cases hhead
    | cons x rest => exact ⟨rest, by rw [Option.some.inj hhead]⟩
  have hstripped : (1 :: rest).dropWhile (· = 0) = (1 :: rest : Bytes) := rfl
  have hstr : (wInit cap).wMpint (1 :: rest) = (wInit cap).wStr (1 :: rest) := by
    rw [WBuf.wMpint]
    simp only [hstripped]
    exact if_neg (by rw [List.headD_cons]; decide)
  rw [hstr]
  exact WBuf.wStr_halts (by rw [List.length_nil]; omega) hinsane

/-- One byte too long for `memcpy`: the buffer has the room that is asked for, and what is
in it is not a length with that many bytes behind it. -/
theorem wMpint_long :
    let d := List.replicate (2 ^ 26 + 1) (1 : UInt8)
    ((wInit (d.length + 5)).wMpint d).halted = true ∧
      ¬ ∃ word body, ((wInit (d.length + 5)).wMpint d).data = putU32 word ++ body ∧
        word.toNat = body.length := by
  intro d
  have hlength : d.length = 2 ^ 26 + 1 := List.length_replicate
  rw [wMpint_halts rfl (by rw [hlength]; decide) (by omega)]
  refine ⟨rfl, ?_⟩
  rintro ⟨word, body, hdata, hword⟩
  have hlengths := congrArg List.length hdata
  rw [List.length_append, length_putU32, length_putU32] at hlengths
  obtain rfl : body = [] := List.length_eq_zero_iff.mp (by omega)
  have hwords : putU32 (UInt32.ofNat d.length) ++ [] = putU32 word ++ [] := by
    rw [List.append_nil]
    exact hdata
  have hzero : UInt32.ofNat d.length = word := by
    rw [← getU32_putU32_append (UInt32.ofNat d.length) [], hwords, getU32_putU32_append]
  rw [← hzero, hlength] at hword
  exact absurd hword (by decide)

end EfiSshServer
