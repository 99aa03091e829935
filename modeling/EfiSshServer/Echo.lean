import EfiSshServer.Console
import EfiSshServer.Decoder
import EfiSshServer.Typing

/-!
# The input side reads what the output side writes

`EmitUtf8` encodes each `CHAR16` for itself, also the halves of a surrogate pair, and
`FeedByte` asks only for a lead byte and its continuation bytes.  So a string that the
shim emits comes back unit by unit, as long as it has no control characters, which
have keys of their own.
-/

namespace EfiSshServer

open RingBuffer Utf8

variable {σ : Type} {d : Decoder} {u : UInt16}

/-! ## The encoding of a unit -/

/-- Setting bits that are clear is adding them. -/
theorem toNat_or_toUInt8 {top bits : UInt16} {i a : ℕ} (htop : top.toNat = 2 ^ i * a)
    (hbits : bits.toNat < 2 ^ i) :
    (top ||| bits).toUInt8 = UInt8.ofNat (top.toNat + bits.toNat) := by
  rw [← UInt8.toNat_inj, UInt16.toNat_toUInt8, UInt16.toNat_or, htop,
    ← Nat.two_pow_add_eq_or_of_lt hbits, UInt8.toNat_ofNat']

theorem tail_eq (bits : UInt16) :
    ((0x80 : UInt16) ||| (bits &&& 0x3F)).toUInt8 = contByte bits.toNat := by
  have hmod : (bits &&& 0x3F).toNat = bits.toNat % 64 := by
    rw [UInt16.toNat_and]
    exact Nat.and_two_pow_sub_one_eq_mod _ 6
  have hlt : bits.toNat % 64 < 64 := Nat.mod_lt _ (by decide)
  rw [toNat_or_toUInt8 (show (0x80 : UInt16).toNat = 2 ^ 6 * 2 from rfl) (by omega), hmod,
    contByte, Nat.add_comm]
  rfl

theorem toNat_shiftRight_six (u : UInt16) : (u >>> 6).toNat = u.toNat / 64 := by
  rw [UInt16.toNat_shiftRight]
  exact Nat.shiftRight_eq_div_pow _ 6

theorem toNat_shiftRight_twelve (u : UInt16) : (u >>> 12).toNat = u.toNat / 4096 := by
  rw [UInt16.toNat_shiftRight]
  exact Nat.shiftRight_eq_div_pow _ 12

/-- From U+0080 on a unit is a complete sequence of its own value. -/
theorem complete_utf8 (h : 0x80 ≤ u) : Complete (utf8 u) ∧ value (utf8 u) = u.toNat := by
  have hu := u.toNat_lt
  have hascii : ¬ u < 0x80 := UInt16.not_lt.mpr h
  by_cases htwo : u < 0x800
  · have hlt : u.toNat < 0x800 := htwo
    have hseq := complete_two hlt
    rw [utf8, if_neg hascii, if_pos htwo]
    simp only [tail_eq]
    rw [toNat_or_toUInt8 (show (0xC0 : UInt16).toNat = 2 ^ 5 * 6 from rfl)
      (by rw [toNat_shiftRight_six]; omega), toNat_shiftRight_six]
    exact hseq
  · have hseq := complete_three hu
    rw [utf8, if_neg hascii, if_neg htwo]
    simp only [tail_eq]
    rw [toNat_or_toUInt8 (show (0xE0 : UInt16).toNat = 2 ^ 4 * 14 from rfl)
      (by rw [toNat_shiftRight_twelve]; omega), toNat_shiftRight_twelve, toNat_shiftRight_six]
    exact hseq

/-! ## Reading it back -/

/-- A unit that is no control character. -/
def IsText (u : UInt16) : Prop := 0x20 ≤ u ∧ u ≠ 0x7F

theorem feedBytes_utf8 (hesc : d.esc = []) (hu : IsText u) :
    ∃ acc cr, feedBytes d (utf8 u) =
      ({ d with utf8Acc := acc, utf8Need := 0, lastWasCr := cr }, [charKey u]) := by
  by_cases hascii : u < 0x80
  · have hbyte : u.toUInt8.toNat = u.toNat := by
      have : u.toNat < 128 := hascii
      rw [UInt16.toNat_toUInt8]
      omega
    have hlow : 0x20 ≤ u.toUInt8 := by
      rw [UInt8.le_iff_toNat_le, hbyte]
      exact hu.1
    have hhigh : u.toUInt8 < 0x7F := by
      have : u.toNat < 128 := hascii
      have : u.toNat ≠ 127 := fun heq => hu.2 (UInt16.toNat_inj.mp heq)
      rw [UInt8.lt_iff_toNat_lt, hbyte]
      change u.toNat < 127
      omega
    have hunit : u.toUInt8.toUInt16 = u := by
      rw [← UInt16.toNat_inj, UInt8.toNat_toUInt16, hbyte]
    refine ⟨d.utf8Acc, false, ?_⟩
    rw [utf8, if_pos hascii, feedBytes, feedByte_ground hesc, groundByte_text hlow hhigh, hunit]
    rfl
  · obtain ⟨hcomplete, hvalue⟩ := complete_utf8 (UInt16.not_lt.mp hascii)
    have hle : u.toNat ≤ 0xFFFF := Nat.le_of_lt_succ u.toNat_lt
    refine ⟨UInt32.ofNat u.toNat, d.lastWasCr, ?_⟩
    rw [feedBytes_complete hesc hcomplete, hvalue, valueKeys, if_pos hle, UInt16.ofNat_toNat]

theorem feedBytes_units {units : List UInt16} (hesc : d.esc = []) (hneed : d.utf8Need = 0)
    (hunits : ∀ u ∈ units, IsText u) :
    (feedBytes d (units.flatMap utf8)).2 = units.map charKey ∧
      (feedBytes d (units.flatMap utf8)).1.esc = [] ∧
      (feedBytes d (units.flatMap utf8)).1.utf8Need = 0 := by
  induction units generalizing d with
  | nil => exact ⟨rfl, hesc, hneed⟩
  | cons u units ih =>
      obtain ⟨acc, cr, hfed⟩ := feedBytes_utf8 hesc (hunits u List.mem_cons_self)
      obtain ⟨hkeys, hidle⟩ := ih
        (d := { d with utf8Acc := acc, utf8Need := 0, lastWasCr := cr }) hesc rfl
        fun v hv => hunits v (List.mem_cons_of_mem _ hv)
      rw [List.flatMap_cons, feedBytes_append, hfed]
      exact ⟨by rw [hkeys]; rfl, hidle⟩

/-- A string of the output side, fed to an idle decoder with room for its keys, is queued
unit by unit, and the decoder is idle again. -/
theorem feedAll_emitted (fw : Firmware σ) (s : Shim σ) {units : List UInt16}
    (hesc : s.keyboard.decoder.esc = []) (hneed : s.keyboard.decoder.utf8Need = 0)
    (hunits : ∀ u ∈ units, IsText u)
    (hroom : s.keyboard.keys.count + units.length < shimKeyRing) :
    (feedBytes s.keyboard.decoder (units.flatMap utf8)).2 = units.map (⟨scanNull, ·⟩) ∧
      (feedAll fw (units.flatMap utf8) s).keyboard.keys.toList =
        s.keyboard.keys.toList ++ units.map (fun u => keyData ⟨scanNull, u⟩) ∧
      (feedAll fw (units.flatMap utf8) s).keyboard.decoder.esc = [] ∧
      (feedAll fw (units.flatMap utf8) s).keyboard.decoder.utf8Need = 0 := by
  obtain ⟨hkeys, hesc', hneed'⟩ := feedBytes_units hesc hneed hunits
  rw [feedAll_keys, feedAll_decoder, hkeys]
  refine ⟨rfl, ?_, hesc', hneed'⟩
  rw [Ring.toList_pushAll_of_fits, List.map_map]
  · rfl
  · simpa using hroom

/-- A letter, an accented letter, half of a surrogate pair and the euro sign. -/
theorem feedAll_emitted_sample :
    (∀ u ∈ [0x41, 0xE9, 0xD83D, 0x20AC], IsText u) ∧
      (feedAll ⟨fun _ => 0, true, true, true, fun _ => (efiNotReady, ⟨0, 0⟩), fun _ => false⟩
        ([0x41, 0xE9, 0xD83D, 0x20AC].flatMap utf8) (zeroConsole ()).toShim).keyboard.keys.toList =
        [0x41, 0xE9, 0xD83D, 0x20AC].map (fun u => keyData ⟨scanNull, u⟩) := by
  have hunits : ∀ u ∈ [0x41, 0xE9, 0xD83D, 0x20AC], IsText u := by
    simp [IsText]
  exact ⟨hunits, (feedAll_emitted _ (zeroConsole ()).toShim rfl rfl hunits (by decide)).2.1⟩

end EfiSshServer
