import EfiSshServer.KeyItems

/-!
# Which bytes the input decoder takes for UTF-8

`FeedByte` knows a character by its lead byte and a count of continuation bytes.  It
checks nothing else, and a continuation byte that nobody announced it takes for a
character of its own.  So it pushes characters for bytes that are not their UTF-8
encoding.

`Reads` says once what a byte can do behind any bytes without ESC.  From it
`decodesExactly_iff` reads off the exact condition under which the decoder is one of
UTF-8: every continuation byte belongs to a lead byte, every complete sequence of a value
up to U+FFFF is the encoding of a character, and no line feed stands behind a carriage
return with only such bytes between them.  Text behind ill-formed bytes is decoded, because
a lead byte starts afresh; but `LastWasCr` outlives them, and the line feed is swallowed.
-/

namespace EfiSshServer

open Utf8

variable {d : Decoder} {bytes front back seq : Bytes} {b : UInt8}

/-! ## What a byte does -/

/-- The bytes end with a sequence of which continuation bytes are missing. -/
def Unfinished (bytes seq : Bytes) : Prop :=
  (∃ front, bytes = front ++ seq) ∧ Begun seq ∧ seq.length ≤ announced (seq.headD 0)

/-- What the decoder keeps of the bytes fed to it. -/
structure Tracks (s : Decoder) (bytes : Bytes) : Prop where
  esc : s.esc = []
  unfinished : 0 < s.utf8Need → ∃ seq, Unfinished bytes seq ∧
    seq.length + s.utf8Need = announced (seq.headD 0) + 1 ∧ s.utf8Acc = UInt32.ofNat (value seq)
  finished : s.utf8Need = 0 → ∀ seq, ¬ Unfinished bytes seq

/-- The keys of a byte `b` behind `bytes`, none of which is an ESC. -/
inductive Reads (bytes : Bytes) (b : UInt8) : List InputKey → Prop
  | ascii (h : b < 0x80) (afterCr : Bool) : Reads bytes b (asciiKeys afterCr b)
  | lead (h : 0xC0 ≤ b) : Reads bytes b []
  | inside {seq : Bytes} (h : IsCont b) (hseq : Unfinished (bytes ++ [b]) seq) : Reads bytes b []
  | last {seq : Bytes} (h : IsCont b) (hbytes : ∃ front, bytes ++ [b] = front ++ seq)
      (hseq : Complete seq) : Reads bytes b (valueKeys (value seq))
  | stray (h : IsCont b) (hnone : ∀ seq, ¬ Unfinished bytes seq) :
      Reads bytes b [charKey b.toUInt16]

/-- All bytes of a sequence are beyond ASCII. -/
theorem not_ascii_of_begun (h : Begun seq) (hb : b ∈ seq) : 0x80 ≤ b := by
  rw [h.eq_cons] at hb
  rcases List.mem_cons.mp hb with rfl | hcont
  · exact UInt8.le_trans (by decide) (announced_pos_iff.mp h.lead)
  · exact (h.conts b hcont).1

/-- A sequence that ends in a continuation byte was unfinished before it. -/
theorem unfinished_of_concat (hbytes : bytes ++ [b] = front ++ seq) (h : Begun seq)
    (hb : IsCont b) : ∃ seq', seq = seq' ++ [b] ∧ Unfinished bytes seq' := by
  obtain ⟨x, conts, rfl⟩ : ∃ x conts, seq = x :: conts := ⟨_, _, h.eq_cons⟩
  rcases List.eq_nil_or_concat' conts with rfl | ⟨conts, y, rfl⟩
  · -- The sequence is its lead byte, which is not a continuation byte.
    obtain ⟨-, hx⟩ := List.append_inj' hbytes rfl
    rw [(List.cons.inj hx).1] at hb
    exact absurd hb (not_isCont_of_announced h.lead)
  · obtain ⟨hfront, hy⟩ := List.append_inj'
      (hbytes.trans (List.append_assoc front (x :: conts) [y]).symm) rfl
    obtain ⟨hbegun, -, hroom⟩ := h.of_snoc
    exact ⟨x :: conts, by rw [(List.cons.inj hy).1]; rfl, ⟨front, hfront⟩, hbegun, hroom⟩

/-- Every byte is ASCII, a continuation byte or a lead byte. -/
theorem byte_cases (b : UInt8) : b < 0x80 ∨ IsCont b ∨ 0xC0 ≤ b := by
  simp only [IsCont, UInt8.le_iff_toNat_le, UInt8.lt_iff_toNat_lt]
  omega

/-- The last byte of the bytes belongs to the sequence they end with. -/
theorem mem_of_concat (hbytes : bytes ++ [b] = front ++ seq) (h : Begun seq) : b ∈ seq := by
  rcases List.eq_nil_or_concat' seq with rfl | ⟨init, y, rfl⟩
  · exact absurd rfl h.ne_nil
  · obtain ⟨-, hy⟩ := List.append_inj'
      (hbytes.trans (List.append_assoc front init [y]).symm) rfl
    rw [(List.cons.inj hy).1]
    simp

/-- One more continuation byte of an unfinished sequence. -/
theorem Tracks.step_cont {s : Decoder} (h : Tracks s bytes) (hb : IsCont b) {n : ℕ}
    (hneed : s.utf8Need = n + 1) :
    Tracks (feedByte s b).1 (bytes ++ [b]) ∧ Reads bytes b (feedByte s b).2 := by
  obtain ⟨seq, hun, hmissing, hacc⟩ := h.unfinished (by omega)
  obtain ⟨⟨front, hbytes⟩, hbegun, hroom⟩ := hun
  have hs : s = { s with utf8Acc := UInt32.ofNat (value seq), utf8Need := n + 1 } := by
    rw [← hacc, ← hneed]
  have hfed := feedByte_cont h.esc hb n hbegun.value_lt
  rw [← hs] at hfed
  have hlonger : Begun (seq ++ [b]) := hbegun.snoc hb hroom
  have hhead : (seq ++ [b]).headD 0 = seq.headD 0 := by
    rw [hbegun.eq_cons]
    rfl
  have hend : bytes ++ [b] = front ++ (seq ++ [b]) := by rw [hbytes, List.append_assoc]
  have hlength : (seq ++ [b]).length = seq.length + 1 := by simp
  rw [hfed]
  refine ⟨⟨h.esc, fun hpos => ?_, fun hzero seq' hun' => ?_⟩, ?_⟩
  · refine ⟨seq ++ [b], ⟨⟨front, hend⟩, hlonger, ?_⟩, ?_, ?_⟩
    · rw [hhead, hlength]
      simp only at hpos
      omega
    · rw [hhead, hlength]
      simp only
      omega
    · rw [hbegun.value_snoc]
  · -- The sequence is complete, and the bytes end with no other.
    simp only at hzero
    have heq := hlonger.suffix_unique hun'.2.1 (hend.symm.trans hun'.1.choose_spec)
    have hroom' := hun'.2.2
    rw [← heq.2, hhead, hlength] at hroom'
    omega
  · by_cases hzero : n = 0
    · rw [if_pos hzero, ← hbegun.value_snoc]
      exact .last hb ⟨front, hend⟩ ⟨hlonger, by rw [hhead, hlength]; omega⟩
    · rw [if_neg hzero]
      exact .inside hb ⟨⟨front, hend⟩, hlonger, by rw [hhead, hlength]; omega⟩

/-- One byte: what the decoder keeps, and the keys. -/
theorem Tracks.step {s : Decoder} (h : Tracks s bytes) (hb : b ≠ 0x1b) :
    Tracks (feedByte s b).1 (bytes ++ [b]) ∧ Reads bytes b (feedByte s b).2 := by
  rcases byte_cases b with hascii | hcont | hlead
  · rw [feedByte_ground h.esc, groundByte_ascii hascii hb]
    refine ⟨⟨h.esc, fun hneed => absurd hneed (Nat.lt_irrefl 0), fun _ seq hun => ?_⟩,
      .ascii hascii _⟩
    obtain ⟨⟨front, heq⟩, hbegun, -⟩ := hun
    have hwide := not_ascii_of_begun hbegun (mem_of_concat heq hbegun)
    simp only [UInt8.le_iff_toNat_le, UInt8.lt_iff_toNat_lt] at hwide hascii
    omega
  · cases hneed : s.utf8Need with
    | zero =>
        rw [feedByte_ground h.esc, groundByte_stray hcont hneed]
        refine ⟨⟨h.esc, fun hpos => absurd hpos (by simp [hneed]), fun _ seq hun => ?_⟩,
          .stray hcont (h.finished hneed)⟩
        obtain ⟨seq', -, hun'⟩ := unfinished_of_concat hun.1.choose_spec hun.2.1 hcont
        exact h.finished hneed seq' hun'
    | succ n => exact h.step_cont hcont hneed
  · have hpos := announced_pos_iff.mpr hlead
    rw [feedByte_ground h.esc, groundByte_lead hlead]
    refine ⟨⟨h.esc, fun _ => ?_, fun hzero => absurd hzero (Nat.pos_iff_ne_zero.mp hpos)⟩,
      .lead hlead⟩
    refine ⟨[b], ⟨⟨bytes, rfl⟩, .singleton hlead, hpos⟩, Nat.add_comm _ _, ?_⟩
    rw [← UInt32.toNat_inj]
    have := (leadBits b).toNat_lt
    simp only [value, List.foldl, UInt32.toNat_ofNat', UInt8.toNat_toUInt32]
    omega

/-- All bytes without ESC. -/
theorem tracks_feedBytes (hesc : d.esc = []) (hneed : d.utf8Need = 0) (hbytes : 0x1b ∉ bytes) :
    Tracks (feedBytes d bytes).1 bytes := by
  induction bytes using List.reverseRecOn with
  | nil =>
      refine ⟨hesc, fun hpos => absurd hpos (by simp [feedBytes, hneed]), fun _ seq hun => ?_⟩
      obtain ⟨⟨front, heq⟩, hbegun, -⟩ := hun
      exact hbegun.ne_nil (List.append_eq_nil_iff.mp heq.symm).2
  | append_singleton bytes b ih =>
      rw [List.mem_append, not_or] at hbytes
      rw [feedBytes_concat]
      exact ((ih hbytes.1).step fun heq => hbytes.2 (by simp [heq])).1

/-- What each byte of bytes without ESC does. -/
theorem feedByte_reads (hesc : d.esc = []) (hneed : d.utf8Need = 0) (hbytes : 0x1b ∉ bytes)
    (heq : bytes = front ++ b :: back) : Reads front b (feedByte (feedBytes d front).1 b).2 := by
  rw [heq, List.mem_append, List.mem_cons, not_or, not_or] at hbytes
  exact ((tracks_feedBytes hesc hneed hbytes.1).step fun hb => hbytes.2.1 hb.symm).2

/-! ## Accepting UTF-8 and nothing else -/

/-- The byte before what follows is a carriage return. -/
def behindCr (afterCr : Bool) (bytes : Bytes) : Bool :=
  bytes.foldl (fun _ b => decide (b = byteOf '\r')) afterCr

/-- Every character from U+0080 on comes from its encoding, every other one from a byte of
ASCII, and text stands for the same keys whatever came before it, but that a line feed
directly behind a carriage return is no key of its own. -/
structure DecodesExactly (d : Decoder) (bytes : Bytes) : Prop where
  wide : ∀ front b back, bytes = front ++ b :: back →
    ∀ k ∈ (feedByte (feedBytes d front).1 b).2, 0x80 ≤ k.unicodeChar →
      ∃ (c : Char) (before : Bytes), c.toNat = k.unicodeChar.toNat ∧
        front ++ [b] = before ++ String.utf8EncodeChar c
  narrow : ∀ front b back, bytes = front ++ b :: back →
    ∀ k ∈ (feedByte (feedBytes d front).1 b).2, k.unicodeChar < 0x80 → b < 0x80
  recovers : ∀ front (text : List Char) back,
    bytes = front ++ text.flatMap String.utf8EncodeChar ++ back →
      (feedBytes (feedBytes d front).1 (text.flatMap String.utf8EncodeChar)).2 =
        expectedKeys (behindCr d.lastWasCr front) (text.map .char)

/-- Every continuation byte was announced, every complete sequence of a value up to U+FFFF
encodes a character, and no line feed follows a carriage return with bytes between them that
are all beyond ASCII. -/
structure WellCoded (afterCr : Bool) (bytes : Bytes) : Prop where
  announced : ∀ front b back, bytes = front ++ b :: back → IsCont b →
    ∃ seq, Unfinished front seq
  encoded : ∀ front seq back, bytes = front ++ seq ++ back → Complete seq → value seq ≤ 0xFFFF →
    ∃ c : Char, seq = String.utf8EncodeChar c
  unstale : ∀ front between back, bytes = front ++ between ++ byteOf '\n' :: back →
    (∀ b ∈ between, 0x80 ≤ b) → behindCr afterCr front = true → between = []

/-! ### Line ends -/

theorem behindCr_append (afterCr : Bool) (xs ys : Bytes) :
    behindCr afterCr (xs ++ ys) = behindCr (behindCr afterCr xs) ys :=
  List.foldl_append

theorem behindCr_concat (afterCr : Bool) (bytes : Bytes) (b : UInt8) :
    behindCr afterCr (bytes ++ [b]) = decide (b = byteOf '\r') :=
  behindCr_append afterCr bytes [b]

theorem not_cr_of_wide (h : 0x80 ≤ b) : b ≠ byteOf '\r' := by
  rintro rfl
  exact absurd h (by decide)

/-- Bytes beyond ASCII leave `LastWasCr` as it is, unless nothing announced them. -/
theorem Tracks.lastWasCr {s : Decoder} (h : Tracks s bytes) (hb : b ≠ 0x1b)
    (hannounced : IsCont b → ∃ seq, Unfinished bytes seq) :
    (feedByte s b).1.lastWasCr = if b < 0x80 then decide (b = byteOf '\r') else s.lastWasCr := by
  rcases byte_cases b with hascii | hcont | hlead
  · rw [feedByte_ground h.esc, groundByte_ascii hascii hb, if_pos hascii]
  · rw [if_neg (UInt8.not_lt.mpr hcont.1)]
    obtain ⟨seq, hun⟩ := hannounced hcont
    cases hneed : s.utf8Need with
    | zero => exact absurd hun (h.finished hneed seq)
    | succ n =>
        obtain ⟨seq', hun', -, hacc⟩ := h.unfinished (by omega)
        have hs : s = { s with utf8Acc := UInt32.ofNat (value seq'), utf8Need := n + 1 } := by
          rw [← hacc, ← hneed]
        have hfed := feedByte_cont h.esc hcont n hun'.2.1.value_lt
        rw [← hs] at hfed
        rw [hfed]
  · rw [if_neg (UInt8.not_lt.mpr (UInt8.le_trans (by decide) hlead)), feedByte_ground h.esc,
      groundByte_lead hlead]

/-- The flag is set exactly behind a carriage return with bytes beyond ASCII. -/
theorem lastWasCr_iff (hesc : d.esc = []) (hneed : d.utf8Need = 0) (hbytes : 0x1b ∉ bytes)
    (hannounced : ∀ front b back, bytes = front ++ b :: back → IsCont b →
      ∃ seq, Unfinished front seq) :
    (feedBytes d bytes).1.lastWasCr = true ↔ ∃ front between, bytes = front ++ between ∧
      (∀ b ∈ between, 0x80 ≤ b) ∧ behindCr d.lastWasCr front = true := by
  induction bytes using List.reverseRecOn with
  | nil =>
      refine ⟨fun h => ⟨[], [], rfl, nofun, h⟩, ?_⟩
      rintro ⟨front, between, heq, -, hcr⟩
      rwa [(List.append_eq_nil_iff.mp heq.symm).1] at hcr
  | append_singleton bytes b ih =>
      rw [List.mem_append, not_or, List.mem_singleton] at hbytes
      have hrest := ih hbytes.1 fun front x back heq =>
        hannounced front x (back ++ [b]) (by simp [heq])
      rw [feedBytes_concat, (tracks_feedBytes hesc hneed hbytes.1).lastWasCr (Ne.symm hbytes.2)
        (hannounced bytes b [] rfl)]
      constructor
      · intro hflag
        split at hflag
        · exact ⟨bytes ++ [b], [], (List.append_nil _).symm, nofun,
            (behindCr_concat _ _ _).trans hflag⟩
        · next hwide =>
            obtain ⟨front, between, rfl, hall, hcr⟩ := hrest.mp hflag
            refine ⟨front, between ++ [b], List.append_assoc _ _ _, fun x hx => ?_, hcr⟩
            rcases List.mem_append.mp hx with hold | hnew
            · exact hall x hold
            · rw [List.mem_singleton.mp hnew]
              exact UInt8.not_lt.mp hwide
      · rintro ⟨front, between, heq, hall, hcr⟩
        rcases List.eq_nil_or_concat' between with rfl | ⟨between, x, rfl⟩
        · rw [← (heq.trans (List.append_nil front)), behindCr_concat] at hcr
          rw [if_pos]
          · exact hcr
          · rw [of_decide_eq_true hcr]
            decide
        · obtain ⟨rfl, hx⟩ := List.append_inj'
            (heq.trans (List.append_assoc front between [x]).symm) rfl
          obtain rfl : b = x := (List.cons.inj hx).1
          rw [if_neg (UInt8.not_lt.mpr (hall b (by simp)))]
          exact hrest.mpr ⟨front, between, rfl, fun y hy => hall y (List.mem_append_left _ hy), hcr⟩

/-- Only a complete sequence of several bytes encodes a character from U+0080 on. -/
theorem complete_utf8EncodeChar_iff {c : Char} :
    Complete (String.utf8EncodeChar c) ↔ 0x80 ≤ c.toNat := by
  refine ⟨fun h => ?_, fun h => (complete_utf8EncodeChar h).1⟩
  by_contra hascii
  have hlength := h.length_eq
  have hlead := h.lead
  rw [utf8EncodeChar_ascii (Nat.lt_of_not_le hascii), List.length_singleton] at hlength
  rw [utf8EncodeChar_ascii (Nat.lt_of_not_le hascii)] at hlead
  omega

/-- Less its last byte, a complete sequence is unfinished. -/
theorem complete_eq_concat (h : Complete seq) : ∃ init b, seq = init ++ [b] ∧ IsCont b := by
  rcases List.eq_nil_or_concat' seq with rfl | ⟨init, b, rfl⟩
  · exact absurd rfl h.ne_nil
  · refine ⟨init, b, rfl, ?_⟩
    cases init with
    | nil =>
        have hlength := h.length_eq
        have hlead := h.lead
        simp only [List.nil_append, List.length_singleton, List.headD_cons] at hlength hlead
        omega
    | cons x init => exact h.conts b (by simp)

/-- Of a text only its last character tells. -/
theorem behindCr_text (afterCr : Bool) (text : List Char) :
    behindCr afterCr (text.flatMap String.utf8EncodeChar) =
      (text.map Item.char).foldl (fun _ i => i.endsInCr) afterCr := by
  induction text using List.reverseRecOn with
  | nil => rfl
  | append_singleton text c =>
      rw [List.flatMap_append, List.map_append, List.foldl_append, behindCr_append,
        List.flatMap_singleton]
      by_cases hascii : c.toNat < 0x80
      · have hcr : (UInt8.ofNat c.toNat = byteOf '\r') ↔ c = '\r' := by
          rw [← UInt8.toNat_inj, UInt8.toNat_ofNat', Nat.mod_eq_of_lt (by omega), ← Char.toNat_inj]
          rfl
        rw [utf8EncodeChar_ascii hascii]
        exact decide_eq_decide.mpr hcr
      · obtain ⟨init, b, heq, hb⟩ :=
          complete_eq_concat (complete_utf8EncodeChar_iff.mpr (Nat.le_of_not_lt hascii))
        have hcr : c ≠ '\r' := by
          rintro rfl
          exact hascii (by decide)
        rw [heq, behindCr_concat]
        exact (decide_eq_false (not_cr_of_wide hb.1)).trans (decide_eq_false hcr).symm

/-- No line feed of such bytes meets a stale flag. -/
theorem WellCoded.lastWasCr (h : WellCoded d.lastWasCr bytes) (hesc : d.esc = [])
    (hneed : d.utf8Need = 0) (hbytes : 0x1b ∉ bytes)
    (heq : bytes = front ++ byteOf '\n' :: back) :
    (feedBytes d front).1.lastWasCr = behindCr d.lastWasCr front := by
  have hfront : 0x1b ∉ front := fun hmem => hbytes (by simp [heq, hmem])
  have hannounced : ∀ front' b back', front = front' ++ b :: back' → IsCont b →
      ∃ seq, Unfinished front' seq := by
    rintro front' b back' rfl
    exact h.announced front' b (back' ++ byteOf '\n' :: back) (by simp [heq])
  refine Bool.eq_iff_iff.mpr ((lastWasCr_iff hesc hneed hfront hannounced).trans ⟨?_, ?_⟩)
  · rintro ⟨front, between, rfl, hall, hcr⟩
    obtain rfl := h.unstale front between back heq hall hcr
    rwa [List.append_nil]
  · exact fun hcr => ⟨front, [], (List.append_nil _).symm, nofun, hcr⟩

/-! ### The condition is enough -/

theorem asciiKeys_narrow (h : b < 0x80) {afterCr : Bool} {k : InputKey}
    (hk : k ∈ asciiKeys afterCr b) : k.unicodeChar < 0x80 := by
  have hcr : charCarriageReturn < (0x80 : UInt16) := by decide
  have hchar : (if b = 0x7f ∨ b = 0x08 then charBackspace else b.toUInt16) < 0x80 := by
    split
    · decide
    · rw [UInt16.lt_iff_toNat_lt, UInt8.toNat_toUInt16]
      exact h
  unfold asciiKeys at hk
  split at hk
  · rw [List.mem_singleton.mp hk]
    exact hcr
  split at hk
  · cases afterCr
    · rw [List.mem_singleton.mp hk]
      exact hcr
    · cases hk
  · rw [List.mem_singleton.mp hk]
    exact hchar

/-- The key of a complete sequence. -/
theorem mem_valueKeys {v : ℕ} {k : InputKey} (hk : k ∈ valueKeys v) :
    v ≤ 0xFFFF ∧ k.unicodeChar.toNat = v := by
  unfold valueKeys at hk
  split at hk
  · next hle =>
      rw [List.mem_singleton.mp hk]
      exact ⟨hle, by simp only [charKey, UInt16.toNat_ofNat']; omega⟩
  · cases hk

/-- What `DecodesExactly` asks of the keys of one byte. -/
theorem WellCoded.char_of_key {k : InputKey} {keys : List InputKey}
    (h : WellCoded d.lastWasCr bytes) (hbytes : bytes = front ++ b :: back)
    (hreads : Reads front b keys) (hk : k ∈ keys) :
    (b < 0x80 ∧ k.unicodeChar < 0x80) ∨
      (0x80 ≤ k.unicodeChar ∧ ∃ (c : Char) (before : Bytes), c.toNat = k.unicodeChar.toNat ∧
        front ++ [b] = before ++ String.utf8EncodeChar c) := by
  cases hreads with
  | ascii hascii afterCr => exact .inl ⟨hascii, asciiKeys_narrow hascii hk⟩
  | lead _ => cases hk
  | inside _ _ => cases hk
  | stray hcont hnone =>
      obtain ⟨seq, hun⟩ := h.announced front b back hbytes hcont
      exact absurd hun (hnone seq)
  | last hcont hend hseq =>
      rename_i seq
      obtain ⟨before, hend⟩ := hend
      obtain ⟨hle, hvalue⟩ := mem_valueKeys hk
      obtain ⟨c, rfl⟩ := h.encoded before seq back (by rw [hbytes, ← hend]; simp) hseq hle
      have hwide := complete_utf8EncodeChar_iff.mp hseq
      rw [(complete_utf8EncodeChar hwide).2] at hvalue
      exact .inr ⟨by rw [UInt16.le_iff_toNat_le, hvalue]; exact hwide, c, before, hvalue.symm, hend⟩

theorem WellCoded.decodesExactly (hesc : d.esc = []) (hneed : d.utf8Need = 0)
    (hbytes : 0x1b ∉ bytes) (h : WellCoded d.lastWasCr bytes) : DecodesExactly d bytes where
  wide front b back heq k hk hwide := by
    have hreads := feedByte_reads hesc hneed hbytes heq
    rcases h.char_of_key heq hreads hk with ⟨-, hnarrow⟩ | ⟨-, hchar⟩
    · exact absurd hwide (UInt16.not_le.mpr hnarrow)
    · exact hchar
  narrow front b back heq k hk hnarrow := by
    have hreads := feedByte_reads hesc hneed hbytes heq
    rcases h.char_of_key heq hreads hk with ⟨hascii, -⟩ | ⟨hwide, -⟩
    · exact hascii
    · exact absurd hwide (UInt16.not_le.mpr hnarrow)
  recovers front text back heq := by
    have hfront : 0x1b ∉ front := fun hmem => hbytes (by simp [heq, hmem])
    have htext : ∀ c ∈ text, (Item.char c).WellFormed := by
      rintro c hc rfl
      refine hbytes ?_
      rw [heq, List.mem_append, List.mem_append]
      exact .inl (.inr (List.mem_flatMap.mpr ⟨_, hc, by decide⟩))
    -- a text is read character by character, each from the flag the last one left
    have hitems : ∀ cs ⊆ text, (feedBytes (feedBytes d front).1
        (cs.flatMap String.utf8EncodeChar)).2 =
          typedKeys (feedBytes d front).1.lastWasCr (cs.map .char) ∧
        (feedBytes (feedBytes d front).1 (cs.flatMap String.utf8EncodeChar)).1.lastWasCr =
          (cs.map Item.char).foldl (fun cr i => i.crFlag cr) (feedBytes d front).1.lastWasCr := by
      intro cs hcs
      have hformed : ∀ i ∈ cs.map Item.char, i.WellFormed := by
        intro i hi
        obtain ⟨c, hc, rfl⟩ := List.mem_map.mp hi
        exact htext c (hcs hc)
      have hfed := feedBytes_items (tracks_feedBytes hesc hneed hfront).esc hformed
      rwa [List.flatMap_map] at hfed
    rw [(hitems text (List.Subset.refl _)).1]
    refine (typed_eq_expected_iff_flags _ fun hcr => ?_).mpr fun before after hsplit => ?_
    · refine (lastWasCr_iff hesc hneed hfront fun front' b back' hsplit => ?_).mpr
        ⟨front, [], (List.append_nil _).symm, nofun, hcr⟩
      exact h.announced front' b (back' ++ text.flatMap String.utf8EncodeChar ++ back)
        (by simp [heq, hsplit])
    · -- at a line feed of the text both flags are those behind the bytes before it
      obtain ⟨cs, rest, rfl, rfl, hrest⟩ := List.map_eq_append_iff.mp hsplit
      obtain ⟨c, cs', rfl, hc, -⟩ := List.map_eq_cons_iff.mp hrest
      obtain rfl : c = '\n' := Item.char.inj hc
      have hplace : bytes = front ++ cs.flatMap String.utf8EncodeChar ++
          byteOf '\n' :: (cs'.flatMap String.utf8EncodeChar ++ back) := by
        rw [heq, List.flatMap_append, List.flatMap_cons]
        simp only [List.append_assoc]
        rfl
      have hlf := h.lastWasCr hesc hneed hbytes hplace
      rw [feedBytes_append, behindCr_append, behindCr_text] at hlf
      exact (hitems cs (List.subset_append_left _ _)).2.symm.trans hlf

/-! ### The condition is needed -/

/-- The last byte of a complete sequence pushes its value. -/
theorem Reads.of_complete {keys : List InputKey} (hreads : Reads bytes b keys)
    (hbytes : bytes ++ [b] = front ++ seq) (hseq : Complete seq) (hb : IsCont b) :
    keys = valueKeys (value seq) := by
  cases hreads with
  | ascii hascii _ =>
      have hcont := hb.1
      simp only [UInt8.le_iff_toNat_le, UInt8.lt_iff_toNat_lt] at hcont hascii
      omega
  | lead hlead => exact absurd hb (not_isCont_of_announced (announced_pos_iff.mpr hlead))
  | inside _ hun =>
      obtain ⟨⟨front', heq⟩, hbegun, hroom⟩ := hun
      obtain rfl := (hseq.toBegun.suffix_unique hbegun (hbytes.symm.trans heq)).2
      have := hseq.length_eq
      omega
  | last _ hend hseq' =>
      obtain ⟨front', heq⟩ := hend
      rw [(hseq.toBegun.suffix_unique hseq'.toBegun (hbytes.symm.trans heq)).2]
  | stray _ hnone =>
      obtain ⟨seq', -, hun⟩ := unfinished_of_concat hbytes hseq.toBegun hb
      exact absurd hun (hnone seq')

theorem Reads.of_stray {keys : List InputKey} (hreads : Reads bytes b keys) (hb : IsCont b)
    (hnone : ∀ seq, ¬ Unfinished bytes seq) : keys = [charKey b.toUInt16] := by
  cases hreads with
  | ascii hascii _ =>
      have hcont := hb.1
      simp only [UInt8.le_iff_toNat_le, UInt8.lt_iff_toNat_lt] at hcont hascii
      omega
  | lead hlead => exact absurd hb (not_isCont_of_announced (announced_pos_iff.mpr hlead))
  | inside _ hun =>
      obtain ⟨seq, -, hun'⟩ := unfinished_of_concat hun.1.choose_spec hun.2.1 hb
      exact absurd hun' (hnone seq)
  | last _ hend hseq =>
      obtain ⟨seq, -, hun⟩ := unfinished_of_concat hend.choose_spec hseq.toBegun hb
      exact absurd hun (hnone seq)
  | stray _ _ => rfl

theorem DecodesExactly.announced (hesc : d.esc = []) (hneed : d.utf8Need = 0)
    (hbytes : 0x1b ∉ bytes) (h : DecodesExactly d bytes) (heq : bytes = front ++ b :: back)
    (hcont : IsCont b) : ∃ seq, Unfinished front seq := by
  by_contra hnone
  have hkeys := (feedByte_reads hesc hneed hbytes heq).of_stray hcont fun seq hun =>
    hnone ⟨seq, hun⟩
  have hmem : charKey b.toUInt16 ∈ (feedByte (feedBytes d front).1 b).2 := by
    rw [hkeys]
    exact List.mem_singleton_self _
  -- The character of the key has a longer encoding, which announces this byte.
  have hwide : 0x80 ≤ (charKey b.toUInt16).unicodeChar := by
    rw [UInt16.le_iff_toNat_le, charKey, UInt8.toNat_toUInt16]
    exact hcont.1
  obtain ⟨c, before, hc, hend⟩ := h.wide front b back heq _ hmem hwide
  have hcomplete : Complete (String.utf8EncodeChar c) :=
    complete_utf8EncodeChar_iff.mpr (by rw [hc]; exact hwide)
  obtain ⟨seq, -, hun⟩ := unfinished_of_concat hend hcomplete.toBegun hcont
  exact hnone ⟨seq, hun⟩

/-- A line feed behind a stale flag is a key too few. -/
theorem DecodesExactly.unstale {between : Bytes} (hesc : d.esc = []) (hneed : d.utf8Need = 0)
    (hbytes : 0x1b ∉ bytes) (h : DecodesExactly d bytes)
    (heq : bytes = front ++ between ++ byteOf '\n' :: back) (hall : ∀ b ∈ between, 0x80 ≤ b)
    (hcr : behindCr d.lastWasCr front = true) : between = [] := by
  rcases List.eq_nil_or_concat' between with hnil | ⟨init, b, rfl⟩
  · exact hnil
  exfalso
  have hfront : 0x1b ∉ front ++ (init ++ [b]) := fun hmem => hbytes (by
    rw [heq]
    exact List.mem_append_left _ hmem)
  have hflag : (feedBytes d (front ++ (init ++ [b]))).1.lastWasCr = true := by
    refine (lastWasCr_iff hesc hneed hfront fun front' x back' hsplit => ?_).mpr
      ⟨front, init ++ [b], rfl, hall, hcr⟩
    have hplace : bytes = front' ++ x :: (back' ++ byteOf '\n' :: back) := by
      rw [heq, hsplit]
      simp
    exact h.announced hesc hneed hbytes hplace
  have hbehind : behindCr d.lastWasCr (front ++ (init ++ [b])) = false := by
    rw [← List.append_assoc, behindCr_concat]
    exact decide_eq_false (not_cr_of_wide (hall b (by simp)))
  have hitem : ∀ i ∈ [Item.char '\n'], i.WellFormed := by
    intro i hi
    rw [List.mem_singleton.mp hi]
    exact show '\n' ≠ '\x1b' by decide
  have hswallowed := (feedBytes_items (tracks_feedBytes hesc hneed hfront).esc hitem).1
  have hkeys := h.recovers (front ++ (init ++ [b])) ['\n'] back (by rw [heq]; simp; rfl)
  rw [hbehind] at hkeys
  rw [hflag] at hswallowed
  exact absurd (hswallowed.symm.trans hkeys) (by decide)

theorem DecodesExactly.wellCoded (hesc : d.esc = []) (hneed : d.utf8Need = 0)
    (hbytes : 0x1b ∉ bytes) (h : DecodesExactly d bytes) : WellCoded d.lastWasCr bytes where
  announced _ _ _ heq hcont := h.announced hesc hneed hbytes heq hcont
  unstale _ _ _ heq hall hcr := h.unstale hesc hneed hbytes heq hall hcr
  encoded front seq back heq hseq hle := by
    obtain ⟨init, b, rfl, hcont⟩ := complete_eq_concat hseq
    have hsplit : bytes = (front ++ init) ++ b :: back := by simp [heq]
    have hend : front ++ init ++ [b] = front ++ (init ++ [b]) := List.append_assoc _ _ _
    have hkeys := (feedByte_reads hesc hneed hbytes hsplit).of_complete hend hseq hcont
    have hmem : charKey (UInt16.ofNat (value (init ++ [b]))) ∈
        (feedByte (feedBytes d (front ++ init)).1 b).2 := by
      rw [hkeys, valueKeys, if_pos hle]
      exact List.mem_singleton_self _
    by_cases hnarrow : (charKey (UInt16.ofNat (value (init ++ [b])))).unicodeChar < 0x80
    · have hascii := h.narrow _ b back hsplit _ hmem hnarrow
      have hcont' := hcont.1
      simp only [UInt8.le_iff_toNat_le, UInt8.lt_iff_toNat_lt] at hcont' hascii
      omega
    · obtain ⟨c, before, hc, hchar⟩ := h.wide _ b back hsplit _ hmem (UInt16.not_lt.mp hnarrow)
      have hcomplete : Complete (String.utf8EncodeChar c) :=
        complete_utf8EncodeChar_iff.mpr (by rw [hc]; exact UInt16.not_lt.mp hnarrow)
      exact ⟨c, (hseq.toBegun.suffix_unique hcomplete.toBegun (hend.symm.trans hchar)).2⟩

/-- From an idle decoder, bytes without ESC are decoded as UTF-8 exactly if every
continuation byte was announced, every complete sequence encodes a character, and no line
feed stands behind a carriage return with only bytes beyond ASCII between them. -/
theorem decodesExactly_iff (hesc : d.esc = []) (hneed : d.utf8Need = 0) (hbytes : 0x1b ∉ bytes) :
    DecodesExactly d bytes ↔ WellCoded d.lastWasCr bytes :=
  ⟨fun h => h.wellCoded hesc hneed hbytes, fun h => h.decodesExactly hesc hneed hbytes⟩

/-- A letter behind a lead byte without its continuation is decoded; a line feed behind a
carriage return and such a lead byte is lost. -/
theorem decodesExactly_sample : DecodesExactly newDecoder [0xC3, 0x41] ∧
    ¬ DecodesExactly newDecoder [0x0D, 0xC3, 0x0A] := by
  have hnone : ∀ b ∈ [(0xC3 : UInt8), 0x41], ¬ IsCont b ∧ b ≠ byteOf '\n' := by
    intro b hb
    simp only [List.mem_cons, List.not_mem_nil, or_false] at hb
    rcases hb with rfl | rfl
    · exact ⟨by simp only [IsCont]; decide, by decide⟩
    · exact ⟨by simp only [IsCont]; decide, by decide⟩
  refine ⟨(decodesExactly_iff rfl rfl (by decide)).mpr ⟨?_, ?_, ?_⟩, fun h => ?_⟩
  · intro front b back heq hcont
    exact absurd hcont (hnone b (by simp [heq])).1
  · intro front seq back heq hseq _
    obtain ⟨init, b, rfl, hcont⟩ := complete_eq_concat hseq
    exact absurd hcont (hnone b (by simp [heq])).1
  · intro front between back heq _ _
    exact absurd rfl (hnone (byteOf '\n') (by simp [heq])).2
  · have hwide : ∀ b ∈ [(0xC3 : UInt8)], 0x80 ≤ b := List.forall_mem_singleton.mpr (by decide)
    have hwell := (decodesExactly_iff rfl rfl (by decide)).mp h
    exact absurd (hwell.unstale [0x0D] [0xC3] [] rfl hwide rfl) (by decide)

/-- `C1 81` spells the letter A in two bytes, and is taken for it. -/
theorem not_decodesExactly :
    ¬ ∀ (d : Decoder) (bytes : Bytes), d.esc = [] → d.utf8Need = 0 → 0x1b ∉ bytes →
      DecodesExactly d bytes := by
  intro h
  have hnarrow := (h newDecoder [0xC1, 0x81] rfl rfl (by decide)).narrow [0xC1] 0x81 [] rfl
    (charKey (byteOf 'A').toUInt16) (by decide) (by decide)
  exact absurd hnarrow (by decide)

end EfiSshServer
