import Mathlib.Data.List.Basic
import Mathlib.Tactic.Ring

/-!
# The wire format helpers of `ssh.c`

`WBuf` and `RBuf` are the bounded writer and reader that every message passes
through.  Both carry a sticky error flag: after a first failure all further
calls do nothing, and readers return zero or the empty string.

A C pointer with a length is a list of bytes.  Since a reader returns a value
and moves its own position, `Field` pairs the value read with the reader after
it.
-/

namespace EfiSshServer

abbrev Bytes := List UInt8

/-- The bytes of a C string literal, without the terminating NUL. -/
def ascii (s : String) : Bytes := s.toList.map fun c => UInt8.ofNat c.toNat

/-- The C string that starts at a buffer: the bytes before its first NUL. -/
def cString (b : Bytes) : Bytes := b.takeWhile (· ≠ 0)

/-! ## 32-bit words, most significant byte first -/

def putU32 (v : UInt32) : Bytes :=
  [(v >>> 24).toUInt8, (v >>> 16).toUInt8, (v >>> 8).toUInt8, v.toUInt8]

def getU32 (b : Bytes) : UInt32 :=
  ((b.getD 0 0).toUInt32 <<< 24) ||| ((b.getD 1 0).toUInt32 <<< 16) |||
    ((b.getD 2 0).toUInt32 <<< 8) ||| (b.getD 3 0).toUInt32

@[simp] theorem length_putU32 (v : UInt32) : (putU32 v).length = 4 := rfl

/-- The four bytes of a word, put together again bit by bit. -/
private theorem word_of_bytes (v : BitVec 32) :
    (((v >>> 24).setWidth 8).setWidth 32 <<< 24 ||| ((v >>> 16).setWidth 8).setWidth 32 <<< 16 |||
      ((v >>> 8).setWidth 8).setWidth 32 <<< 8 ||| (v.setWidth 8).setWidth 32) = v := by
  ext i hi
  have hbit := BitVec.getLsbD_eq_getElem (x := v) hi
  simp only [BitVec.getElem_or, BitVec.getElem_setWidth, BitVec.getElem_shiftLeft,
    BitVec.getLsbD_setWidth, BitVec.getLsbD_ushiftRight]
  rcases Nat.lt_or_ge i 8 with h8 | h8
  · simp [h8, show i < 16 by omega, show i < 24 by omega, hbit]
  rcases Nat.lt_or_ge i 16 with h16 | h16
  · simp [h16, show ¬ i < 8 by omega, show i < 24 by omega, show i - 8 < 8 by omega,
      show 8 + (i - 8) = i by omega, hbit]
  rcases Nat.lt_or_ge i 24 with h24 | h24
  · simp [h24, show ¬ i < 8 by omega, show ¬ i < 16 by omega, show ¬ i - 8 < 8 by omega,
      show i - 16 < 8 by omega, show 16 + (i - 16) = i by omega, hbit]
  · simp [show ¬ i < 8 by omega, show ¬ i < 16 by omega, show ¬ i < 24 by omega,
      show ¬ i - 8 < 8 by omega, show ¬ i - 16 < 8 by omega, show i - 24 < 8 by omega,
      show 24 + (i - 24) = i by omega, hbit]

/-- Reading back a word just written, whatever follows it. -/
@[simp] theorem getU32_putU32_append (v : UInt32) (rest : Bytes) :
    getU32 (putU32 v ++ rest) = v :=
  UInt32.eq_of_toBitVec_eq (word_of_bytes v.toBitVec)

/-! ## Writing -/

/-- `RT_INSANE_LEN`: a `memcpy`, `memmove` or `memset` of more bytes reports itself and
stays in `InsaneLen` for good. -/
def rtInsaneLen : ℕ := 64 * 1024 * 1024

/-- A buffer that is being written.  `halted` says that a copy into it has not come
back, so that no later call is made. -/
structure WBuf where
  data : Bytes
  cap : ℕ
  err : Bool
  halted : Bool

def wInit (cap : ℕ) : WBuf := ⟨[], cap, false, false⟩

namespace WBuf

def wBytes (b : WBuf) (d : Bytes) : WBuf :=
  if b.halted = true then b
  else if b.err = true ∨ b.data.length + d.length > b.cap then { b with err := true }
  else if d.length > rtInsaneLen then { b with halted := true }
  else { b with data := b.data ++ d }

def wByte (b : WBuf) (v : UInt8) : WBuf := b.wBytes [v]

def wU32 (b : WBuf) (v : UInt32) : WBuf := b.wBytes (putU32 v)

def wStr (b : WBuf) (d : Bytes) : WBuf := (b.wU32 (UInt32.ofNat d.length)).wBytes d

def wCStr (b : WBuf) (s : String) : WBuf := b.wStr (ascii s)

/-- An unsigned big-endian integer as an `mpint`: leading zeros dropped, one zero
byte in front when the top bit is set. -/
def wMpint (b : WBuf) (d : Bytes) : WBuf :=
  let d := d.dropWhile (· = 0)
  if (d.headD 0 &&& 0x80) ≠ 0 then
    ((b.wU32 (UInt32.ofNat d.length + 1)).wByte 0).wBytes d
  else b.wStr d

/-- The first byte written: the message number of a payload. -/
def first (b : WBuf) : Option UInt8 := b.data.head?

theorem first_wByte_wInit {cap : ℕ} (hcap : 0 < cap) (v : UInt8) :
    ((wInit cap).wByte v).first = some v := by
  simp [wByte, wBytes, wInit, first, rtInsaneLen, show ¬ cap < 1 by omega]

/-- Writing more does not change it. -/
theorem first_wBytes {b : WBuf} {v : UInt8} (h : b.first = some v) (d : Bytes) :
    (b.wBytes d).first = some v := by
  unfold wBytes
  split
  · exact h
  · split
    · exact h
    · split
      · exact h
      · simp only [first, List.head?_append] at h ⊢
        simp [h]

theorem first_wByte {b : WBuf} {v : UInt8} (h : b.first = some v) (w : UInt8) :
    (b.wByte w).first = some v :=
  first_wBytes h _

theorem first_wU32 {b : WBuf} {v : UInt8} (h : b.first = some v) (w : UInt32) :
    (b.wU32 w).first = some v :=
  first_wBytes h _

theorem first_wStr {b : WBuf} {v : UInt8} (h : b.first = some v) (d : Bytes) :
    (b.wStr d).first = some v :=
  first_wBytes (first_wU32 h _) _

theorem first_wCStr {b : WBuf} {v : UInt8} (h : b.first = some v) (s : String) :
    (b.wCStr s).first = some v :=
  first_wStr h _

/-- Bytes that fit, and are not too many for one copy, are appended. -/
theorem wBytes_eq {cap : ℕ} {d x : Bytes} (h : d.length + x.length ≤ cap)
    (hsane : x.length ≤ rtInsaneLen) :
    (WBuf.mk d cap false false).wBytes x = ⟨d ++ x, cap, false, false⟩ := by
  rw [wBytes, if_neg Bool.false_ne_true, if_neg (by simpa using h), if_neg (Nat.not_lt.mpr hsane)]

theorem wU32_eq {cap : ℕ} {d : Bytes} (v : UInt32) (h : d.length + 4 ≤ cap) :
    (WBuf.mk d cap false false).wU32 v = ⟨d ++ putU32 v, cap, false, false⟩ :=
  wBytes_eq h (by rw [length_putU32, rtInsaneLen]; omega)

theorem wStr_eq {cap : ℕ} {d x : Bytes} (h : d.length + (4 + x.length) ≤ cap)
    (hsane : x.length ≤ rtInsaneLen) :
    (WBuf.mk d cap false false).wStr x =
      ⟨d ++ (putU32 (UInt32.ofNat x.length) ++ x), cap, false, false⟩ := by
  rw [wStr, wU32_eq _ (by omega), wBytes_eq _ hsane, List.append_assoc]
  rw [List.length_append, length_putU32]
  omega

/-- Of a string that is too long for one copy the length word is written. -/
theorem wStr_halts {cap : ℕ} {d x : Bytes} (h : d.length + (4 + x.length) ≤ cap)
    (hinsane : rtInsaneLen < x.length) :
    (WBuf.mk d cap false false).wStr x =
      ⟨d ++ putU32 (UInt32.ofNat x.length), cap, false, true⟩ := by
  have hroom : ¬ (d ++ putU32 (UInt32.ofNat x.length)).length + x.length > cap := by
    rw [List.length_append, length_putU32]
    omega
  rw [wStr, wU32_eq _ (by omega), wBytes, if_neg Bool.false_ne_true, if_neg (by simpa using hroom),
    if_pos hinsane]

/-- A writer stays within its buffer. -/
theorem length_wBytes_le {b : WBuf} {cap : ℕ} (hcap : b.cap = cap) (h : b.data.length ≤ cap)
    (x : Bytes) : (b.wBytes x).cap = cap ∧ (b.wBytes x).data.length ≤ cap := by
  unfold wBytes
  split
  · exact ⟨hcap, h⟩
  · split
    · exact ⟨hcap, h⟩
    · next hfits =>
        rw [not_or, Nat.not_lt, ← List.length_append] at hfits
        split
        · exact ⟨hcap, h⟩
        · exact ⟨hcap, hcap ▸ hfits.2⟩

/-- No copy into a small buffer halts.  The buffers of the connection are small, so its
messages need no word about `halted`. -/
theorem halted_wBytes {b : WBuf} (hcap : b.cap ≤ rtInsaneLen) (x : Bytes) :
    (b.wBytes x).halted = b.halted := by
  unfold wBytes
  split
  · rfl
  · split
    · rfl
    · next hfits =>
        rw [not_or, Nat.not_lt] at hfits
        rw [if_neg (by omega)]

/-- A writer into a small buffer that has taken in `n` bytes, and has neither failed nor
halted. -/
structure Holds (b : WBuf) (cap n : ℕ) : Prop where
  small : cap ≤ rtInsaneLen
  err : b.err = false
  cap : b.cap = cap
  length : b.data.length = n
  running : b.halted = false

theorem holds_wInit {cap : ℕ} (hcap : cap ≤ rtInsaneLen) : (wInit cap).Holds cap 0 :=
  ⟨hcap, rfl, rfl, rfl, rfl⟩

theorem Holds.wBytes {b : WBuf} {cap n : ℕ} (h : b.Holds cap n) {x : Bytes}
    (hfits : n + x.length ≤ cap) : (b.wBytes x).Holds cap (n + x.length) := by
  have hrunning := (halted_wBytes (h.cap ▸ h.small) x).trans h.running
  have hsane : x.length ≤ rtInsaneLen := (Nat.le_of_add_left_le hfits).trans h.small
  obtain ⟨data, _, _, _⟩ := b
  obtain ⟨hsmall, rfl, rfl, rfl, rfl⟩ := h
  rw [wBytes_eq hfits hsane] at hrunning ⊢
  exact ⟨hsmall, rfl, rfl, List.length_append, hrunning⟩

theorem Holds.wCStr {b : WBuf} {cap n : ℕ} (h : b.Holds cap n) {s : String}
    (hfits : n + 4 + (ascii s).length ≤ cap) :
    (b.wCStr s).Holds cap (n + 4 + (ascii s).length) :=
  (h.wBytes (by rw [length_putU32]; omega)).wBytes hfits

theorem length_wStr_le {b : WBuf} {cap : ℕ} (hcap : b.cap = cap) (h : b.data.length ≤ cap)
    (x : Bytes) : (b.wStr x).cap = cap ∧ (b.wStr x).data.length ≤ cap :=
  have hword := length_wBytes_le hcap h (putU32 (UInt32.ofNat x.length))
  length_wBytes_le hword.1 hword.2 x

end WBuf

/-! ## Reading -/

structure RBuf where
  data : Bytes
  pos : ℕ
  err : Bool

/-- A value read, and the reader after it. -/
structure Field (α : Type) where
  val : α
  rest : RBuf

def rInit (b : Bytes) : RBuf := ⟨b, 0, false⟩

def rByte (r : RBuf) : Field UInt8 :=
  if r.err = true ∨ r.pos + 1 > r.data.length then ⟨0, { r with err := true }⟩
  else ⟨r.data.getD r.pos 0, { r with pos := r.pos + 1 }⟩

def rU32 (r : RBuf) : Field UInt32 :=
  if r.err = true ∨ r.pos + 4 > r.data.length then ⟨0, { r with err := true }⟩
  else ⟨getU32 (r.data.drop r.pos), { r with pos := r.pos + 4 }⟩

def rStr (r : RBuf) : Field Bytes :=
  let l := rU32 r
  if l.rest.err = true ∨ l.rest.pos + l.val.toNat > l.rest.data.length then
    ⟨[], { l.rest with err := true }⟩
  else
    ⟨(l.rest.data.drop l.rest.pos).take l.val.toNat,
      { l.rest with pos := l.rest.pos + l.val.toNat }⟩

/-! ## Names and name-lists -/

def nameIs (n : Bytes) (s : String) : Bool := n = ascii s

def comma : UInt8 := 44

/-- The length of the first entry of a comma-separated list. -/
def firstEntryLen (list : Bytes) : ℕ := (list.takeWhile (· ≠ comma)).length

/-- The scan of `ListHas`; each round drops at least one byte, so the length of
the list is enough rounds. -/
def listHasFrom : ℕ → Bytes → Bytes → Bool
  | 0, _, _ => false
  | _ + 1, [], _ => false
  | rounds + 1, list, name =>
      if list.take (firstEntryLen list) = name then true
      else
        match list.drop (firstEntryLen list) with
        | [] => false
        | _ :: rest => listHasFrom rounds rest name

def listHas (list : String) (name : Bytes) : Bool :=
  listHasFrom (ascii list).length (ascii list) name

/-- The scan of `PickAlg` over the client's list. -/
def pickAlgFrom : ℕ → Bytes → String → Option Bytes
  | 0, _, _ => none
  | _ + 1, [], _ => none
  | rounds + 1, client, ours =>
      if listHas ours (client.take (firstEntryLen client)) then
        some (client.take (firstEntryLen client))
      else pickAlgFrom rounds (client.drop (firstEntryLen client + 1)) ours

/-- The first entry of the client's list that the server also lists. -/
def pickAlg (client : Bytes) (ours : String) : Option Bytes :=
  pickAlgFrom client.length client ours

end EfiSshServer
