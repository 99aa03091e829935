import Mathlib.Data.List.GetD
import EfiSshServer.Decoder

/-!
# Key sequences

A terminal sends a key that is not a character as `ESC [`, parameters and a final
byte, or as `ESC O` and a letter.  From a decoder with no escape sequence open, or
with nothing but its ESC, such a sequence gives its one key
(`feedBytes_keySequence`).

In the middle of another sequence it does not.  The parameter loop stores the new ESC
like any other byte, and the `[` or `O` behind it is then a final byte, which ends the
old sequence; what follows comes out as text.  `ESC O` swallows the new ESC in the same
way.  So a sequence that broke off takes the next one with it
(`resynchronises_iff`).
-/

namespace EfiSshServer

open Utf8

variable {d : Decoder} {b : UInt8}

/-! ## The sequences -/

/-- A parameter or an intermediate byte. -/
def IsParam (b : UInt8) : Prop := 0x20 ≤ b ∧ b < 0x40

/-- The number that a string of digits spells. -/
def decimal (digits : Bytes) : ℕ :=
  digits.foldl (fun n b => n * 10 + (b.toNat - (byteOf '0').toNat)) 0

/-- CSI with a letter, CSI with a number and `~`, and SS3. -/
inductive KeySequence where
  | letter (params : Bytes) (final : UInt8)
  | tilde (digits rest : Bytes)
  | ss3 (final : UInt8)

namespace KeySequence

/-- The bytes behind the ESC. -/
def body : KeySequence → Bytes
  | letter params final => byteOf '[' :: (params ++ [final])
  | tilde digits rest => byteOf '[' :: (digits ++ rest ++ [byteOf '~'])
  | ss3 final => [byteOf 'O', final]

def bytes (k : KeySequence) : Bytes := 0x1b :: k.body

def scan : KeySequence → UInt16
  | letter _ final => letterScan final
  | tilde digits _ => tildeScan (UInt64.ofNat (decimal digits))
  | ss3 final => letterScan final

def key (k : KeySequence) : InputKey := ⟨k.scan, 0⟩

/-- The sequence fits into `Esc`, and it stands for a key. -/
def Recognised (k : KeySequence) : Prop :=
  k.bytes.length ≤ escSize ∧ k.scan ≠ scanNull ∧
    match k with
    | letter params _ => ∀ b ∈ params, IsParam b
    | tilde digits rest =>
        (∀ b ∈ digits, isDigit b = true) ∧ decimal digits < 2 ^ 64 ∧
          (∀ b ∈ rest, IsParam b) ∧ isDigit (rest.headD 0) = false
    | ss3 _ => True

end KeySequence

/-! ## Inside an escape sequence -/

theorem feedByte_ss3 (hlength : 2 ≤ d.esc.length) (ho : d.esc.getD 1 0 = byteOf 'O')
    (b : UInt8) : feedByte d b = ({ d with esc := [] }, handleSs3 b) := by
  have hne : d.esc ≠ [] := List.ne_nil_of_length_pos (by omega)
  rw [feedByte, if_neg hne]
  split
  · simp only [List.length_append, List.length_singleton]
    rw [if_neg (by omega), List.getD_append _ _ _ _ (by omega), if_pos ho]
  · next hfull =>
      have hlong : ¬ d.esc.length = 2 := fun h => hfull (h ▸ by decide)
      simp only
      rw [if_neg hlong, if_pos ho]

theorem feedByte_csi (hlength : 2 ≤ d.esc.length) (ho : d.esc.getD 1 0 ≠ byteOf 'O')
    (hroom : d.esc.length < escSize) (b : UInt8) :
    feedByte d b =
      if 0x40 ≤ b ∧ b ≤ 0x7E then ({ d with esc := [] }, handleCsi (d.esc ++ [b]))
      else if d.esc.length + 1 ≥ escSize then ({ d with esc := [] }, [])
      else ({ d with esc := d.esc ++ [b] }, []) := by
  have hne : d.esc ≠ [] := List.ne_nil_of_length_pos (by omega)
  rw [feedByte, if_neg hne, if_pos hroom]
  simp only [List.length_append, List.length_singleton]
  rw [if_neg (by omega), List.getD_append _ _ _ _ (by omega), if_neg ho]

/-- Bytes that do not end the sequence are collected. -/
theorem feedBytes_params {params : Bytes} (hlength : 2 ≤ d.esc.length)
    (ho : d.esc.getD 1 0 ≠ byteOf 'O') (hroom : d.esc.length + params.length < escSize)
    (hparams : ∀ b ∈ params, b < 0x40) :
    feedBytes d params = ({ d with esc := d.esc ++ params }, []) := by
  induction params generalizing d with
  | nil => rw [feedBytes, List.append_nil]
  | cons b params ih =>
      have hfinal : ¬ (0x40 ≤ b ∧ b ≤ 0x7E) := fun h => by
        have := hparams b List.mem_cons_self
        simp only [UInt8.le_iff_toNat_le, UInt8.lt_iff_toNat_lt] at h this
        omega
      rw [List.length_cons] at hroom
      have hstep := feedByte_csi hlength ho (by omega) b
      rw [if_neg hfinal, if_neg (by omega)] at hstep
      rw [feedBytes, hstep, ih]
      · simp
      · simp only [List.length_append]
        omega
      · simp only
        rwa [List.getD_append _ _ _ _ (by omega)]
      · simp only [List.length_append, List.length_singleton]
        omega
      · exact fun x hx => hparams x (List.mem_cons_of_mem _ hx)

/-- `ESC [` with parameters and a final byte. -/
theorem feedBytes_csi {params : Bytes} (hesc : d.esc = [0x1b]) (hparams : ∀ b ∈ params, b < 0x40)
    (hlength : params.length + 3 ≤ escSize) (hb : 0x40 ≤ b ∧ b ≤ 0x7E) :
    feedBytes d (byteOf '[' :: (params ++ [b])) =
      ({ d with esc := [] }, handleCsi (0x1b :: byteOf '[' :: (params ++ [b]))) := by
  have hopen : feedByte d (byteOf '[') = ({ d with esc := [0x1b, byteOf '['] }, []) := by
    rw [feedByte, hesc]
    rfl
  rw [feedBytes, hopen, feedBytes_concat, feedBytes_params]
  · rw [feedByte_csi, if_pos hb]
    · rfl
    · simp
    · simp only [List.cons_append, List.getD_cons_succ, List.getD_cons_zero]
      decide
    · simp only [List.length_append, List.length_cons, List.length_nil]
      omega
  · simp
  · simp only [List.getD_cons_succ, List.getD_cons_zero]
    decide
  · simp only [List.length_cons, List.length_nil]
    omega
  · exact hparams

/-! ## Numbers -/

/-- The number in front of the `~`, as long as it does not wrap. -/
theorem csiNum_digits {digits rest : Bytes} (hdigits : ∀ b ∈ digits, isDigit b = true)
    (hrest : isDigit (rest.headD 0) = false) (final : UInt8) :
    csiNum (0x1b :: byteOf '[' :: (digits ++ rest ++ [final])) =
      UInt64.ofNat (decimal digits) := by
  have hfold : ∀ n : ℕ, digits.foldl (fun num b => num * 10 + (b - byteOf '0').toUInt64)
      (UInt64.ofNat n) =
      UInt64.ofNat (digits.foldl (fun n b => n * 10 + (b.toNat - (byteOf '0').toNat)) n) := by
    clear hrest
    induction digits with
    | nil => exact fun n => rfl
    | cons b digits ih =>
        intro n
        have hb := hdigits b List.mem_cons_self
        simp only [isDigit, Bool.and_eq_true, decide_eq_true_eq, UInt8.le_iff_toNat_le] at hb
        have hword : (b - byteOf '0').toUInt64 = UInt64.ofNat (b.toNat - (byteOf '0').toNat) := by
          rw [← UInt64.toNat_inj, UInt8.toNat_toUInt64, UInt8.toNat_sub_of_le _ _
            (UInt8.le_iff_toNat_le.mpr hb.1), UInt64.toNat_ofNat', Nat.mod_eq_of_lt]
          have := b.toNat_lt
          omega
        rw [List.foldl_cons, List.foldl_cons, hword, ← ih fun x hx =>
          hdigits x (List.mem_cons_of_mem _ hx)]
        simp only [UInt64.ofNat_add, UInt64.ofNat_mul]
        rfl
  have hwhile : (digits ++ rest).takeWhile isDigit = digits := by
    rw [List.takeWhile_append_of_pos hdigits]
    cases rest with
    | nil => simp
    | cons b rest =>
        rw [List.takeWhile_cons_of_neg, List.append_nil]
        simpa using hrest
  rw [csiNum, show (0x1b :: byteOf '[' :: (digits ++ rest ++ [final])).drop 2 =
    digits ++ rest ++ [final] from rfl, List.dropLast_concat, hwhile]
  exact hfold 0

/-! ## A sequence from its start -/

/-- The final bytes of the table are letters. -/
theorem letterScan_ne (h : letterScan b ≠ scanNull) : 0x40 ≤ b ∧ b < 0x7E := by
  have hall : ∀ v : BitVec 8, letterScan ⟨v⟩ ≠ scanNull → 0x40#8 ≤ v ∧ v < 0x7E#8 := by
    decide +kernel
  exact hall b.toBitVec h

theorem handleCsi_eq (front : Bytes) (final : UInt8) :
    handleCsi (front ++ [final]) =
      scanKeys (if final = byteOf '~' then tildeScan (csiNum (front ++ [final]))
        else letterScan final) := by
  rw [handleCsi, List.getLastD_concat]

theorem scanKeys_of_ne {scan : UInt16} (h : scan ≠ scanNull) : scanKeys scan = [⟨scan, 0⟩] :=
  if_pos h

namespace KeySequence

variable {k : KeySequence}

/-- From a decoder that has seen only the ESC. -/
theorem feedBytes_body (hesc : d.esc = [0x1b]) (h : k.Recognised) :
    feedBytes d k.body = ({ d with esc := [] }, [k.key]) := by
  obtain ⟨hlength, hscan, hbytes⟩ := h
  cases k with
  | letter params final =>
      change letterScan final ≠ scanNull at hscan
      have hfinal := letterScan_ne hscan
      have hne : final ≠ byteOf '~' := by
        rintro rfl
        exact absurd hfinal.2 (by decide)
      have hroom : params.length + 3 ≤ escSize := by
        simp only [bytes, body, List.length_cons, List.length_append, List.length_nil] at hlength
        omega
      rw [body, feedBytes_csi hesc (fun b hb => (hbytes b hb).2) hroom
        ⟨hfinal.1, UInt8.le_of_lt hfinal.2⟩]
      rw [show 0x1b :: byteOf '[' :: (params ++ [final]) =
        (0x1b :: byteOf '[' :: params) ++ [final] from rfl, handleCsi_eq, if_neg hne,
        scanKeys_of_ne hscan]
      rfl
  | tilde digits rest =>
      change tildeScan (UInt64.ofNat (decimal digits)) ≠ scanNull at hscan
      obtain ⟨hdigits, -, hrest, hend⟩ := hbytes
      -- no byte of the parameters ends the sequence
      have hlow : ∀ b ∈ digits ++ rest, b < 0x40 := fun b hb => by
        rcases List.mem_append.mp hb with hd | hr
        · have hdigit := hdigits b hd
          simp only [isDigit, Bool.and_eq_true, decide_eq_true_eq] at hdigit
          exact UInt8.lt_of_le_of_lt hdigit.2 (by decide)
        · exact (hrest b hr).2
      have hroom : (digits ++ rest).length + 3 ≤ escSize := by
        simp only [bytes, body, List.length_cons, List.length_append, List.length_nil] at hlength ⊢
        omega
      rw [body, feedBytes_csi hesc hlow hroom (by decide)]
      rw [show 0x1b :: byteOf '[' :: (digits ++ rest ++ [byteOf '~']) =
        (0x1b :: byteOf '[' :: (digits ++ rest)) ++ [byteOf '~'] from rfl, handleCsi_eq,
        if_pos rfl]
      rw [show (0x1b :: byteOf '[' :: (digits ++ rest)) ++ [byteOf '~'] =
        0x1b :: byteOf '[' :: (digits ++ rest ++ [byteOf '~']) from rfl,
        csiNum_digits hdigits hend, scanKeys_of_ne hscan]
      rfl
  | ss3 final =>
      change letterScan final ≠ scanNull at hscan
      have hopen : feedByte d (byteOf 'O') = ({ d with esc := [0x1b, byteOf 'O'] }, []) := by
        rw [feedByte, hesc]
        rfl
      rw [body, feedBytes, hopen, feedBytes, feedByte_ss3, handleSs3, scanKeys_of_ne hscan]
      · rfl
      · simp
      · rfl

/-- With no escape sequence open, a key sequence gives its key. -/
theorem feedBytes_bytes (hesc : d.esc = []) (h : k.Recognised) :
    feedBytes d k.bytes = (d, [k.key]) := by
  have hopen : feedByte d 0x1b = ({ d with esc := [0x1b] }, []) := by
    rw [feedByte_ground hesc]
    rfl
  rw [bytes, feedBytes, hopen, feedBytes_body rfl h]
  simp [← hesc]

/-- The first two bytes behind the ESC are text when they do not follow it. -/
theorem body_eq (h : k.Recognised) :
    ∃ c x rest, k.body = c :: x :: rest ∧ (c = byteOf '[' ∨ c = byteOf 'O') ∧
      0x20 ≤ x ∧ x < 0x7F := by
  obtain ⟨-, hscan, hbytes⟩ := h
  have hletter : ∀ {x : UInt8}, letterScan x ≠ scanNull → 0x20 ≤ x ∧ x < 0x7F := fun hx =>
    ⟨UInt8.le_trans (by decide) (letterScan_ne hx).1,
      UInt8.lt_trans (letterScan_ne hx).2 (by decide)⟩
  cases k with
  | letter params final =>
      cases params with
      | nil => exact ⟨_, final, [], rfl, .inl rfl, hletter hscan⟩
      | cons x params =>
          have hx := hbytes x List.mem_cons_self
          exact ⟨_, x, params ++ [final], rfl, .inl rfl, hx.1, UInt8.lt_trans hx.2 (by decide)⟩
  | tilde digits rest =>
      cases digits with
      | nil => exact absurd rfl hscan
      | cons x digits =>
          have hx := hbytes.1 x List.mem_cons_self
          simp only [isDigit, Bool.and_eq_true, decide_eq_true_eq] at hx
          exact ⟨_, x, _, rfl, .inl rfl, UInt8.le_trans (by decide) hx.1,
            UInt8.lt_of_le_of_lt hx.2 (by decide)⟩
  | ss3 final => exact ⟨_, final, [], rfl, .inr rfl, hletter hscan⟩

end KeySequence

/-! ## A sequence inside another -/

def InputKey.isPrintable (k : InputKey) : Bool :=
  k.scanCode = scanNull && 0x20 ≤ k.unicodeChar && k.unicodeChar ≠ 0x7F

theorem printable_of_text (hx : 0x20 ≤ b) (hx' : b < 0x7F) :
    ∃ k ∈ (groundByte d b).2, k.isPrintable = true := by
  rw [groundByte_text hx hx']
  refine ⟨_, List.mem_singleton_self _, ?_⟩
  have hbounds : 32 ≤ b.toNat ∧ b.toNat < 127 := ⟨hx, hx'⟩
  simp only [InputKey.isPrintable, charKey, Bool.and_eq_true, decide_eq_true_eq, ne_eq,
    UInt16.le_iff_toNat_le, ← UInt16.toNat_inj, UInt8.toNat_toUInt16]
  exact ⟨⟨trivial, hbounds.1⟩, fun heq => absurd hbounds.2 (by rw [heq]; decide)⟩

/-- An ESC inside a sequence ends it without a key, or is collected as a parameter. -/
theorem feedByte_esc_of_open (hlength : 2 ≤ d.esc.length) :
    (feedByte d 0x1b).1.esc = [] ∨
      ((feedByte d 0x1b).1.esc = d.esc ++ [0x1b] ∧ d.esc.getD 1 0 ≠ byteOf 'O' ∧
        d.esc.length + 1 < escSize) := by
  by_cases ho : d.esc.getD 1 0 = byteOf 'O'
  · rw [feedByte_ss3 hlength ho]
    exact .inl rfl
  by_cases hroom : d.esc.length < escSize
  · rw [feedByte_csi hlength ho hroom, if_neg (by decide)]
    split
    · exact .inl rfl
    · exact .inr ⟨rfl, ho, by omega⟩
  · -- The buffer never fills up, but the code has a way out.
    have hne : d.esc ≠ [] := List.ne_nil_of_length_pos (by omega)
    have hlong : ¬ d.esc.length = 2 := fun h => hroom (h ▸ by decide)
    rw [feedByte, if_neg hne, if_neg hroom]
    simp only
    rw [if_neg hlong, if_neg ho, if_neg (by decide), if_pos (Nat.le_of_not_lt hroom)]
    exact .inl rfl

/-- The ESC of a key sequence inside another sequence makes text of what follows. -/
theorem printable_of_open (hlength : 2 ≤ d.esc.length) {c x : UInt8}
    (hc : c = byteOf '[' ∨ c = byteOf 'O') (hx : 0x20 ≤ x) (hx' : x < 0x7F) (rest : Bytes) :
    ∃ k ∈ (feedBytes d (0x1b :: c :: x :: rest)).2, k.isPrintable = true := by
  simp only [feedBytes, List.mem_append]
  rcases feedByte_esc_of_open hlength with hidle | ⟨hesc, ho, hroom⟩
  · -- The old sequence is over, and the byte behind the ESC is text.
    have htext : 0x20 ≤ c ∧ c < 0x7F := by
      rcases hc with rfl | rfl <;> decide
    obtain ⟨k, hk, hprint⟩ := printable_of_text (d := (feedByte d 0x1b).1) htext.1 htext.2
    rw [← feedByte_ground hidle] at hk
    exact ⟨k, .inr (.inl hk), hprint⟩
  · -- That byte ends the old sequence, and the next one is text.
    have hfinal : 0x40 ≤ c ∧ c ≤ 0x7E := by
      rcases hc with rfl | rfl <;> decide
    have hidle : (feedByte (feedByte d 0x1b).1 c).1.esc = [] := by
      rw [feedByte_csi, if_pos hfinal]
      · rw [hesc, List.length_append]
        omega
      · rw [hesc, List.getD_append _ _ _ _ (by omega)]
        exact ho
      · rw [hesc, List.length_append]
        exact hroom
    obtain ⟨k, hk, hprint⟩ := printable_of_text (d := (feedByte (feedByte d 0x1b).1 c).1) hx hx'
    rw [← feedByte_ground hidle] at hk
    exact ⟨k, .inr (.inr (.inl hk)), hprint⟩

/-! ## Resynchronising -/

/-- The sequence ends outside any escape sequence, its key is the last one, and none of
its bytes comes out as text. -/
structure Resynchronises (d : Decoder) (k : KeySequence) : Prop where
  esc : (feedBytes d k.bytes).1.esc = []
  last : (feedBytes d k.bytes).2.getLast? = some k.key
  silent : ∀ key ∈ (feedBytes d k.bytes).2, key.isPrintable = false

/-- A key sequence resynchronises the decoder, whatever state it is in, exactly if no
other sequence is open beyond its ESC. -/
theorem resynchronises_iff (d : Decoder) {k : KeySequence} (hk : k.Recognised) :
    Resynchronises d k ↔ d.esc.length ≤ 1 := by
  have hkey : k.key.isPrintable = false := by
    have hscan : k.scan ≠ scanNull := hk.2.1
    simp [InputKey.isPrintable, KeySequence.key, hscan]
  constructor
  · intro h
    by_contra hlong
    obtain ⟨c, x, rest, hbody, hc, hx, hx'⟩ := KeySequence.body_eq hk
    obtain ⟨key, hmem, hprint⟩ := printable_of_open (Nat.lt_of_not_le hlong) hc hx hx' rest
    rw [← hbody] at hmem
    exact Bool.false_ne_true ((h.silent key hmem).symm.trans hprint)
  · intro hshort
    cases hesc : d.esc with
    | nil =>
        have hfed := KeySequence.feedBytes_bytes hesc hk
        refine ⟨?_, ?_, ?_⟩
        · rw [hfed, hesc]
        · rw [hfed]
          rfl
        · rw [hfed]
          simpa using hkey
    | cons first rest =>
        -- The pending ESC comes out as a key, and the new one opens the sequence.
        have hrest : rest = [] := by
          rw [hesc, List.length_cons] at hshort
          exact List.length_eq_zero_iff.mp (by omega)
        have hopen : feedByte d 0x1b = ({ d with esc := [0x1b] }, [escKey]) := by
          rw [feedByte, hesc, hrest]
          rfl
        have hfed : feedBytes d k.bytes = ({ d with esc := [] }, [escKey, k.key]) := by
          rw [KeySequence.bytes, feedBytes, hopen, KeySequence.feedBytes_body rfl hk]
          rfl
        refine ⟨?_, ?_, ?_⟩
        · rw [hfed]
        · rw [hfed]
          rfl
        · rw [hfed]
          simpa using ⟨by decide, hkey⟩

theorem resynchronises_behind_esc :
    (KeySequence.tilde (ascii "24") []).Recognised ∧
      Resynchronises (feedBytes newDecoder [0xC3, 0x1b]).1 (.tilde (ascii "24") []) := by
  have hk : (KeySequence.tilde (ascii "24") []).Recognised :=
    ⟨by decide, by decide, by decide +kernel, by decide, by simp, by decide⟩
  exact ⟨hk, (resynchronises_iff _ hk).mpr (by decide)⟩

/-- An arrow key that breaks off behind `ESC [ 1` turns the next one into the letter A. -/
theorem not_resynchronises_in_csi :
    ¬ ∀ (typed : Bytes) (k : KeySequence), k.Recognised →
      Resynchronises (feedBytes newDecoder typed).1 k := by
  intro h
  have hk : (KeySequence.letter [] (byteOf 'A')).Recognised := ⟨by decide, by decide, by simp⟩
  have hletter := (h [0x1b, byteOf '[', byteOf '1'] (.letter [] (byteOf 'A')) hk).silent
    (charKey (byteOf 'A').toUInt16) (by decide)
  exact absurd hletter (by decide)

end EfiSshServer
