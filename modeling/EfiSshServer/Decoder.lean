import EfiSshServer.Keys
import EfiSshServer.Lib.Utf8

/-!
# What `FeedByte` makes of single bytes and of characters

Outside an escape sequence a byte is of one of four kinds: ASCII, a lead byte, a
continuation byte that was announced, or one that was not.  There is one lemma for
each, and from them `feedBytes_begun` for a multi-byte sequence as far as it has come,
and `feedBytes_char` for a whole character.
-/

namespace EfiSshServer

open Utf8

variable {d : Decoder} {b : UInt8} {seq : Bytes}

theorem feedByte_ground (hesc : d.esc = []) (b : UInt8) : feedByte d b = groundByte d b :=
  if_pos hesc

/-! ## The four kinds of bytes -/

/-- The keys of an ASCII byte other than ESC. -/
def asciiKeys (afterCr : Bool) (b : UInt8) : List InputKey :=
  if b = byteOf '\r' then [charKey charCarriageReturn]
  else if b = byteOf '\n' then if afterCr then [] else [charKey charCarriageReturn]
  else [charKey (if b = 0x7f ∨ b = 0x08 then charBackspace else b.toUInt16)]

theorem plainByte_low (h : b < 0xC0) :
    plainByte d b = ({ d with lastWasCr := b = byteOf '\r' }, asciiKeys d.lastWasCr b) := by
  have hlead : ¬ b ≥ 0xC0 := by
    simp only [ge_iff_le, UInt8.le_iff_toNat_le, UInt8.lt_iff_toNat_lt] at h ⊢
    omega
  have hlead₂ : ¬ b ≥ 0xE0 := fun h' => hlead (UInt8.le_trans (by decide) h')
  have hlead₃ : ¬ b ≥ 0xF0 := fun h' => hlead (UInt8.le_trans (by decide) h')
  rw [plainByte, if_neg hlead₃, if_neg hlead₂, if_neg hlead, asciiKeys]
  by_cases hcr : b = byteOf '\r'
  · simp [hcr]
  by_cases hlf : b = byteOf '\n'
  · obtain ⟨esc, need, acc, cr⟩ := d
    cases cr <;> simp [hlf, show byteOf '\n' ≠ byteOf '\r' by decide]
  · simp [hcr, hlf]

theorem groundByte_ascii (h : b < 0x80) (hesc : b ≠ 0x1b) :
    groundByte d b =
      ({ d with utf8Need := 0, lastWasCr := b = byteOf '\r' }, asciiKeys d.lastWasCr b) := by
  have hlow : b < 0xC0 := UInt8.lt_trans h (by decide)
  have hcont : ¬ b &&& 0xC0 = 0x80 := fun hand => by
    have := (isCont_iff_and.mpr hand).1
    simp only [UInt8.le_iff_toNat_le, UInt8.lt_iff_toNat_lt] at h this
    omega
  rw [groundByte, if_neg hesc]
  by_cases hneed : d.utf8Need > 0
  · rw [if_pos hneed, if_neg hcont, plainByte_low hlow]
  · rw [if_neg hneed, plainByte_low hlow, show d.utf8Need = 0 by omega]

/-- A printable byte of ASCII. -/
theorem groundByte_text (h : 0x20 ≤ b) (h' : b < 0x7F) :
    groundByte d b =
      ({ d with utf8Need := 0, lastWasCr := false }, [charKey b.toUInt16]) := by
  have hne : ∀ x : UInt8, x < 0x20 ∨ x = 0x7F → b ≠ x := by
    rintro x (hx | rfl) rfl
    · exact absurd h (UInt8.not_le.mpr hx)
    · exact absurd h' (by decide)
  rw [groundByte_ascii (UInt8.lt_trans h' (by decide)) (hne _ (by decide)), asciiKeys,
    if_neg (hne _ (by decide)), if_neg (hne _ (by decide)), if_neg, decide_eq_false]
  · exact hne _ (by decide)
  · rintro (heq | heq)
    · exact hne _ (by decide) heq
    · exact hne _ (by decide) heq

/-- A continuation byte that was not announced. -/
theorem groundByte_stray (h : IsCont b) (hneed : d.utf8Need = 0) :
    groundByte d b = ({ d with lastWasCr := false }, [charKey b.toUInt16]) := by
  have hne : ∀ x : UInt8, x < 0x80 → b ≠ x := by
    rintro x hx rfl
    have := h.1
    simp only [UInt8.le_iff_toNat_le, UInt8.lt_iff_toNat_lt] at hx this
    omega
  rw [groundByte, if_neg (hne _ (by decide)), if_neg (by omega), plainByte_low h.2, asciiKeys,
    if_neg (hne _ (by decide)), if_neg (hne _ (by decide)), if_neg]
  · simp [hne (byteOf '\r') (by decide)]
  · rintro (heq | heq)
    · exact hne _ (by decide) heq
    · exact hne _ (by decide) heq

theorem plainByte_lead (h : 0xC0 ≤ b) :
    plainByte d b =
      ({ d with utf8Acc := (leadBits b).toUInt32, utf8Need := announced b }, []) := by
  unfold plainByte leadBits announced
  split
  · rfl
  split <;> rfl

theorem groundByte_lead (h : 0xC0 ≤ b) :
    groundByte d b =
      ({ d with utf8Acc := (leadBits b).toUInt32, utf8Need := announced b }, []) := by
  have hesc : b ≠ 0x1b := by
    rintro rfl
    exact absurd h (by decide)
  have hcont : ¬ b &&& 0xC0 = 0x80 := fun hand =>
    not_isCont_of_announced (announced_pos_iff.mpr h) (isCont_iff_and.mpr hand)
  rw [groundByte, if_neg hesc]
  split
  · exact plainByte_lead h
  · exact plainByte_lead h

theorem groundByte_cont (h : IsCont b) {n : ℕ} (hneed : d.utf8Need = n + 1) :
    groundByte d b =
      ({ d with utf8Acc := (d.utf8Acc <<< 6) ||| (b &&& 0x3F).toUInt32, utf8Need := n },
        if n = 0 ∧ (d.utf8Acc <<< 6) ||| (b &&& 0x3F).toUInt32 ≤ 0xFFFF
        then [charKey ((d.utf8Acc <<< 6) ||| (b &&& 0x3F).toUInt32).toUInt16] else []) := by
  have hesc : b ≠ 0x1b := by
    rintro rfl
    exact absurd h (by decide)
  rw [groundByte, if_neg hesc, if_pos (by omega), if_pos (isCont_iff_and.mp h), hneed]
  rfl

/-! ## Multi-byte sequences -/

/-- The accumulator takes one more group of six bits. -/
theorem acc_extend {v : ℕ} (h : v < 2 ^ 23) (b : UInt8) :
    (UInt32.ofNat v <<< 6) ||| (b &&& 0x3F).toUInt32 = UInt32.ofNat (extend v b) := by
  have hmod : b.toNat % 64 < 2 ^ 6 := Nat.mod_lt _ (by decide)
  have hv : v % 2 ^ 32 = v := Nat.mod_eq_of_lt (by omega)
  rw [← UInt32.toNat_inj]
  simp only [UInt32.toNat_or, UInt32.toNat_shiftLeft, UInt32.toNat_ofNat', UInt8.toNat_toUInt32,
    and_sixBits, extend, UInt32.reduceToNat, hv]
  have hshift : v <<< (6 % 32) = v * 64 := Nat.shiftLeft_eq v 6
  rw [hshift, Nat.mod_eq_of_lt (show v * 64 < 2 ^ 32 by omega),
    Nat.mod_eq_of_lt (show v * 64 + b.toNat % 64 < 2 ^ 32 by omega), ← hshift,
    Nat.shiftLeft_add_eq_or_of_lt hmod]

/-- The key of a value that was spelled out, which is none above U+FFFF. -/
def valueKeys (v : ℕ) : List InputKey := if v ≤ 0xFFFF then [charKey (UInt16.ofNat v)] else []

/-- One more byte of a value; the last one missing pushes the key. -/
theorem feedByte_cont (hesc : d.esc = []) (hb : IsCont b) (n : ℕ) {v : ℕ} (hv : v < 2 ^ 23) :
    feedByte { d with utf8Acc := UInt32.ofNat v, utf8Need := n + 1 } b =
      ({ d with utf8Acc := UInt32.ofNat (extend v b), utf8Need := n },
        if n = 0 then valueKeys (extend v b) else []) := by
  have hwidth : extend v b < 2 ^ 32 := by
    have : b.toNat % 64 < 64 := Nat.mod_lt _ (by decide)
    unfold extend
    omega
  have hle : UInt32.ofNat (extend v b) ≤ 0xFFFF ↔ extend v b ≤ 0xFFFF := by
    rw [UInt32.le_iff_toNat_le, UInt32.toNat_ofNat', Nat.mod_eq_of_lt hwidth]
    rfl
  have hchar : (UInt32.ofNat (extend v b)).toUInt16 = UInt16.ofNat (extend v b) := by
    rw [← UInt16.toNat_inj, UInt32.toNat_toUInt16, UInt32.toNat_ofNat', UInt16.toNat_ofNat',
      Nat.mod_eq_of_lt hwidth]
  rw [feedByte_ground (by exact hesc), groundByte_cont hb rfl]
  simp only [acc_extend hv, hle, hchar, valueKeys]
  by_cases hlast : n = 0
  · simp only [hlast, true_and, if_true]
  · simp only [hlast, false_and, if_false]

/-- A sequence as far as it has come: the bytes still missing are counted, and the last
one pushes the key. -/
theorem feedBytes_begun (hesc : d.esc = []) (h : Begun seq) :
    feedBytes d seq =
      ({ d with
          utf8Acc := UInt32.ofNat (value seq)
          utf8Need := announced (seq.headD 0) + 1 - seq.length },
        if seq.length = announced (seq.headD 0) + 1 then valueKeys (value seq) else []) := by
  induction h using Begun.induction with
  | lead b hb =>
      have hpos := announced_pos_iff.mpr hb
      have hacc : UInt32.ofNat (value [b]) = (leadBits b).toUInt32 := by
        rw [← UInt32.toNat_inj]
        have := (leadBits b).toNat_lt
        simp only [value, List.foldl, UInt32.toNat_ofNat', UInt8.toNat_toUInt32]
        omega
      rw [feedBytes, feedByte_ground hesc, groundByte_lead hb, hacc, if_neg]
      · rfl
      · rw [List.length_singleton, List.headD_cons]
        omega
  | snoc seq b hseq hb hroom ih =>
      have hhead : (seq ++ [b]).headD 0 = seq.headD 0 := by
        rw [hseq.eq_cons]
        rfl
      -- One byte fewer is missing.
      obtain ⟨n, hn⟩ : ∃ n, announced (seq.headD 0) = seq.length + n :=
        ⟨_, (Nat.add_sub_of_le hroom).symm⟩
      have hbefore : announced (seq.headD 0) + 1 - seq.length = n + 1 := by omega
      have hafter : announced (seq.headD 0) + 1 - (seq.length + 1) = n := by omega
      have hlast : seq.length + 1 = announced (seq.headD 0) + 1 ↔ n = 0 := by omega
      rw [feedBytes_concat, ih, if_neg (by omega : ¬ seq.length = announced (seq.headD 0) + 1),
        hhead, hseq.value_snoc, List.length_append, List.length_singleton, hbefore, hafter,
        feedByte_cont hesc hb n hseq.value_lt]
      simp only [hlast, List.nil_append]

/-- A complete sequence, whatever was pending before it. -/
theorem feedBytes_complete (hesc : d.esc = []) (h : Complete seq) :
    feedBytes d seq =
      ({ d with utf8Acc := UInt32.ofNat (value seq), utf8Need := 0 }, valueKeys (value seq)) := by
  rw [feedBytes_begun hesc h.toBegun, if_pos h.length_eq, h.length_eq, Nat.sub_self]

/-! ## Characters -/

theorem toNat_byteOf {c : Char} (h : c.toNat < 0x80) : (byteOf c).toNat = c.toNat := by
  rw [byteOf, UInt8.toNat_ofNat']
  omega

theorem byteOf_inj {c x : Char} (hc : c.toNat < 0x80) (hx : x.toNat < 0x80) :
    byteOf c = byteOf x ↔ c = x := by
  refine ⟨fun heq => Char.toNat_inj.mp ?_, congrArg byteOf⟩
  rw [← toNat_byteOf hc, heq, toNat_byteOf hx]

/-- The keys of a character other than ESC. -/
def charKeys (afterCr : Bool) (c : Char) : List InputKey :=
  if c = '\r' then [charKey charCarriageReturn]
  else if c = '\n' then if afterCr then [] else [charKey charCarriageReturn]
  else if c = '\x7f' ∨ c = '\x08' then [charKey charBackspace]
  else valueKeys c.toNat

theorem asciiKeys_byteOf {c : Char} (h : c.toNat < 0x80) (afterCr : Bool) :
    asciiKeys afterCr (byteOf c) = charKeys afterCr c := by
  have hdel : (byteOf c = 0x7f ∨ byteOf c = 0x08) ↔ (c = '\x7f' ∨ c = '\x08') :=
    or_congr (byteOf_inj (x := '\x7f') h (by decide)) (byteOf_inj (x := '\x08') h (by decide))
  have hchar : (byteOf c).toUInt16 = UInt16.ofNat c.toNat := by
    rw [← UInt16.toNat_inj, UInt8.toNat_toUInt16, toNat_byteOf h, UInt16.toNat_ofNat']
    omega
  simp only [asciiKeys, charKeys, byteOf_inj (x := '\r') h (by decide),
    byteOf_inj (x := '\n') h (by decide), hdel, hchar, valueKeys]
  rw [if_pos (by omega : c.toNat ≤ 0xFFFF)]
  by_cases hback : c = '\x7f' ∨ c = '\x08'
  · rw [if_pos hback, if_pos hback]
  · rw [if_neg hback, if_neg hback]

theorem charKeys_wide {c : Char} (h : ¬ c.toNat < 0x80) (afterCr : Bool) :
    charKeys afterCr c = valueKeys c.toNat := by
  have hne : ∀ x : Char, x.toNat < 0x80 → c ≠ x := by
    rintro x hx rfl
    exact h hx
  rw [charKeys, if_neg (hne _ (by decide)), if_neg (hne _ (by decide)), if_neg]
  rintro (heq | heq)
  · exact hne _ (by decide) heq
  · exact hne _ (by decide) heq

/-- `LastWasCr` behind a character: the multi-byte ones leave it as it is. -/
def crBehind (wasCr : Bool) (c : Char) : Bool := if c.toNat < 0x80 then c = '\r' else wasCr

/-- A character, whatever was pending before it. -/
theorem feedBytes_char (hesc : d.esc = []) {c : Char} (hc : c ≠ '\x1b') :
    ∃ acc, feedBytes d (String.utf8EncodeChar c) =
      ({ d with utf8Acc := acc, utf8Need := 0, lastWasCr := crBehind d.lastWasCr c },
        charKeys d.lastWasCr c) := by
  by_cases hascii : c.toNat < 0x80
  · refine ⟨d.utf8Acc, ?_⟩
    rw [utf8EncodeChar_ascii hascii, crBehind, if_pos hascii, ← asciiKeys_byteOf hascii]
    change feedBytes d [byteOf c] = _
    rw [feedBytes, feedByte_ground hesc, groundByte_ascii, feedBytes, List.append_nil]
    · simp only [byteOf_inj (x := '\r') hascii (by decide)]
    · rw [UInt8.lt_iff_toNat_lt, toNat_byteOf hascii]
      exact hascii
    · exact fun heq => hc ((byteOf_inj (x := '\x1b') hascii (by decide)).mp heq)
  · obtain ⟨hcomplete, hvalue⟩ := complete_utf8EncodeChar (Nat.le_of_not_lt hascii)
    refine ⟨UInt32.ofNat c.toNat, ?_⟩
    rw [feedBytes_complete hesc hcomplete, hvalue, charKeys_wide hascii, crBehind,
      if_neg hascii]

end EfiSshServer
