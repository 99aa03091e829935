import Mathlib.Algebra.Group.Nat.Defs
import Mathlib.Data.List.Induction

/-!
# Multi-byte sequences of UTF-8

A lead byte announces how many continuation bytes follow it; together they spell a
value in groups of six bits.  A decoder that only counts continuation bytes reads
every such sequence, also those that are not the encoding of a character
(`String.utf8EncodeChar`): too long for their value, of a surrogate, or with a lead
byte that UTF-8 does not have.

* `Begun` is a sequence of which continuation bytes may still be missing,
  `Complete` one that has them all, and `value` what has been read of it.
* `Begun.suffix_unique`: a list ends with one begun sequence at most, because its lead
  byte is the last byte of the list that is not a continuation byte.
* `complete_utf8EncodeChar`: the encoding of a character from U+0080 on is a complete
  sequence, and its value is the character.
-/

namespace Utf8

/-! ## Bytes -/

def IsCont (b : UInt8) : Prop := 0x80 ≤ b ∧ b < 0xC0

instance (b : UInt8) : Decidable (IsCont b) := inferInstanceAs (Decidable (_ ∧ _))

/-- The test of the two top bits. -/
theorem isCont_iff_and {b : UInt8} : IsCont b ↔ b &&& 0xC0 = 0x80 := by
  have hall : ∀ v : BitVec 8, (0x80#8 ≤ v ∧ v < 0xC0#8) ↔ v &&& 0xC0#8 = 0x80#8 := by
    decide +kernel
  rw [← UInt8.toBitVec_inj]
  exact hall b.toBitVec

/-- How many continuation bytes a lead byte asks for; none after other bytes. -/
def announced (b : UInt8) : ℕ :=
  if b ≥ 0xF0 then 3 else if b ≥ 0xE0 then 2 else if b ≥ 0xC0 then 1 else 0

/-- The bits of the value in a lead byte. -/
def leadBits (b : UInt8) : UInt8 :=
  if b ≥ 0xF0 then b &&& 0x07 else if b ≥ 0xE0 then b &&& 0x0F else b &&& 0x1F

theorem announced_pos_iff {b : UInt8} : 0 < announced b ↔ 0xC0 ≤ b := by
  simp only [announced, ge_iff_le, UInt8.le_iff_toNat_le, UInt8.reduceToNat]
  split <;> [skip; split <;> [skip; split]] <;> omega

theorem announced_le (b : UInt8) : announced b ≤ 3 := by
  unfold announced
  split <;> [skip; split <;> [skip; split]] <;> omega

theorem not_isCont_of_announced {b : UInt8} (h : 0 < announced b) : ¬ IsCont b := by
  have hlead := announced_pos_iff.mp h
  simp only [IsCont, UInt8.le_iff_toNat_le, UInt8.lt_iff_toNat_lt] at hlead ⊢
  omega

theorem and_sixBits (b : UInt8) : (b &&& 0x3F).toNat = b.toNat % 64 := by
  rw [UInt8.toNat_and]
  exact Nat.and_two_pow_sub_one_eq_mod _ 6

theorem leadBits_lt (b : UInt8) : (leadBits b).toNat < 32 := by
  have hall : ∀ v : BitVec 8,
      (v &&& 0x07#8) < 32#8 ∧ (v &&& 0x0F#8) < 32#8 ∧ (v &&& 0x1F#8) < 32#8 := by
    decide +kernel
  unfold leadBits
  split
  · exact (hall b.toBitVec).1
  split
  · exact (hall b.toBitVec).2.1
  · exact (hall b.toBitVec).2.2

/-! ## Sequences -/

/-- One more group of six bits. -/
def extend (v : ℕ) (b : UInt8) : ℕ := v * 64 + b.toNat % 64

def value : List UInt8 → ℕ
  | [] => 0
  | lead :: conts => conts.foldl extend (leadBits lead).toNat

/-- A lead byte with continuation bytes, no more than it announces. -/
structure Begun (seq : List UInt8) : Prop where
  lead : 0 < announced (seq.headD 0)
  conts : ∀ b ∈ seq.tail, IsCont b
  length_le : seq.length ≤ announced (seq.headD 0) + 1

/-- All the continuation bytes are there. -/
structure Complete (seq : List UInt8) : Prop extends Begun seq where
  length_eq : seq.length = announced (seq.headD 0) + 1

namespace Begun

variable {seq seq' front front' : List UInt8} {b : UInt8}

theorem singleton (h : 0xC0 ≤ b) : Begun [b] where
  lead := announced_pos_iff.mpr h
  conts := by simp
  length_le := by simp

theorem ne_nil (h : Begun seq) : seq ≠ [] := by
  rintro rfl
  exact absurd h.lead (by decide)

theorem eq_cons (h : Begun seq) : seq = seq.headD 0 :: seq.tail := by
  cases seq with
  | nil => exact absurd rfl h.ne_nil
  | cons b bs => rfl

/-- A continuation byte, where one is missing. -/
theorem snoc (h : Begun seq) (hb : IsCont b) (hroom : seq.length ≤ announced (seq.headD 0)) :
    Begun (seq ++ [b]) := by
  obtain ⟨lead, conts, rfl⟩ : ∃ lead conts, seq = lead :: conts := ⟨_, _, h.eq_cons⟩
  exact {
    lead := h.lead
    conts := fun x hx => by
      rcases List.mem_append.mp hx with hold | hnew
      · exact h.conts x hold
      · rw [List.mem_singleton.mp hnew]
        exact hb
    length_le := by
      rw [List.length_append]
      exact Nat.succ_le_succ hroom }

theorem value_snoc (h : Begun seq) (b : UInt8) : value (seq ++ [b]) = extend (value seq) b := by
  obtain ⟨lead, conts, rfl⟩ : ∃ lead conts, seq = lead :: conts := ⟨_, _, h.eq_cons⟩
  simp [value]

/-- Less its last byte, a sequence with a continuation byte has one missing. -/
theorem of_snoc {x b : UInt8} {conts : List UInt8} (h : Begun (x :: (conts ++ [b]))) :
    Begun (x :: conts) ∧ IsCont b ∧ (x :: conts).length ≤ announced x := by
  have hlength := h.length_le
  simp only [List.headD_cons, List.length_cons, List.length_append, List.length_nil] at hlength
  refine ⟨⟨h.lead, fun y hy => h.conts y (List.mem_append_left _ hy), ?_⟩, h.conts b (by simp), ?_⟩
  · rw [List.headD_cons, List.length_cons]
    omega
  · rw [List.length_cons]
    omega

/-- A sequence is begun by its lead byte, and then grows at its end. -/
@[elab_as_elim]
theorem induction {motive : ∀ seq, Begun seq → Prop}
    (lead : ∀ b (hb : 0xC0 ≤ b), motive [b] (.singleton hb))
    (snoc : ∀ seq b (hseq : Begun seq) (hb : IsCont b)
      (hroom : seq.length ≤ announced (seq.headD 0)), motive seq hseq →
      motive (seq ++ [b]) (hseq.snoc hb hroom))
    (h : Begun seq) : motive seq h := by
  obtain ⟨x, conts, rfl⟩ : ∃ x conts, seq = x :: conts := ⟨_, _, h.eq_cons⟩
  induction conts using List.reverseRecOn with
  | nil => exact lead x (announced_pos_iff.mp h.lead)
  | append_singleton conts b ih =>
      obtain ⟨hseq, hb, hroom⟩ := h.of_snoc
      exact snoc (x :: conts) b hseq hb hroom (ih hseq)

/-- The continuation bytes are those at the end of the list. -/
private theorem tail_reverse (h : Begun seq) (front : List UInt8) :
    (front ++ seq).reverse.takeWhile (fun b => decide (IsCont b)) = seq.tail.reverse := by
  rw [h.eq_cons, List.reverse_append, List.reverse_cons, List.append_assoc, List.tail_cons,
    List.takeWhile_append_of_pos fun b hb => by
      simpa using h.conts b (List.mem_reverse.mp hb)]
  rw [List.singleton_append, List.takeWhile_cons_of_neg, List.append_nil]
  simpa using not_isCont_of_announced h.lead

/-- A list ends with one begun sequence at most. -/
theorem suffix_unique (h : Begun seq) (h' : Begun seq') (heq : front ++ seq = front' ++ seq') :
    front = front' ∧ seq = seq' := by
  have htail : seq.tail = seq'.tail := by
    have hrev := h.tail_reverse front
    rw [heq, h'.tail_reverse front'] at hrev
    exact (List.reverse_inj.mp hrev).symm
  have hlength : seq.length = seq'.length := by
    rw [h.eq_cons, h'.eq_cons, htail, List.length_cons, List.length_cons]
  exact List.append_inj' heq hlength

end Begun

/-- The values stay far below the width of a word. -/
theorem Begun.value_lt {seq : List UInt8} (h : Begun seq) : value seq < 2 ^ 23 := by
  have hstep : ∀ (conts : List UInt8) (v bound : ℕ), v < bound →
      conts.foldl extend v < bound * 64 ^ conts.length := by
    intro conts
    induction conts with
    | nil =>
        intro v bound hv
        simpa using hv
    | cons b conts ih =>
        intro v bound hv
        have hmod : b.toNat % 64 < 64 := Nat.mod_lt _ (by decide)
        have hnext : extend v b < bound * 64 := by
          unfold extend
          omega
        calc (b :: conts).foldl extend v = conts.foldl extend (extend v b) := rfl
          _ < bound * 64 * 64 ^ conts.length := ih _ _ hnext
          _ = bound * 64 ^ (b :: conts).length := by
              rw [List.length_cons, Nat.pow_succ', Nat.mul_assoc]
  have hlength : seq.tail.length ≤ 3 := by
    have h₁ := h.length_le
    have h₂ := announced_le (seq.headD 0)
    rw [List.length_tail]
    omega
  calc value seq = seq.tail.foldl extend (leadBits (seq.headD 0)).toNat := by
        conv_lhs => rw [h.eq_cons]
        rfl
    _ < 32 * 64 ^ seq.tail.length := hstep _ _ _ (leadBits_lt _)
    _ ≤ 32 * 64 ^ 3 := Nat.mul_le_mul_left _ (Nat.pow_le_pow_right (by decide) hlength)
    _ = 2 ^ 23 := by decide

/-! ## Spelling a value -/

/-- The continuation byte with these six bits. -/
def contByte (v : ℕ) : UInt8 := UInt8.ofNat (v % 64 + 0x80)

theorem toNat_contByte (v : ℕ) : (contByte v).toNat = v % 64 + 0x80 := by
  rw [contByte, UInt8.toNat_ofNat']
  omega

theorem isCont_contByte (v : ℕ) : IsCont (contByte v) := by
  simp only [IsCont, UInt8.le_iff_toNat_le, UInt8.lt_iff_toNat_lt, toNat_contByte,
    UInt8.reduceToNat]
  omega

theorem extend_contByte (v w : ℕ) : extend v (contByte w) = v * 64 + w % 64 := by
  rw [extend, toNat_contByte]
  omega

/-- The three lengths: the first lead byte of each, and how far its values reach. -/
def leads : List (ℕ × ℕ × ℕ) := [(1, 0xC0, 32), (2, 0xE0, 16), (3, 0xF0, 8)]

/-- A lead byte spells its own bits. -/
theorem lead_of_mem {n start reach bits : ℕ} (hmem : (n, start, reach) ∈ leads)
    (hbits : bits < reach) :
    announced (UInt8.ofNat (start + bits)) = n ∧
      (leadBits (UInt8.ofNat (start + bits))).toNat = bits := by
  have hall : ∀ row ∈ leads, ∀ bits < row.2.2,
      announced (UInt8.ofNat (row.2.1 + bits)) = row.1 ∧
        (leadBits (UInt8.ofNat (row.2.1 + bits))).toNat = bits := by
    decide
  exact hall _ hmem bits hbits

/-- A lead byte with the groups of six bits behind it. -/
theorem complete_of_mem {n start reach bits : ℕ} (hmem : (n, start, reach) ∈ leads)
    (hbits : bits < reach) {groups : List ℕ} (hgroups : groups.length = n) :
    Complete (UInt8.ofNat (start + bits) :: groups.map contByte) ∧
      value (UInt8.ofNat (start + bits) :: groups.map contByte) =
        groups.foldl (fun v w => v * 64 + w % 64) bits := by
  obtain ⟨hannounced, hlead⟩ := lead_of_mem hmem hbits
  have hpos : 0 < n := by
    have hall : ∀ row ∈ leads, 0 < row.1 := by decide
    exact hall _ hmem
  have hlength : (UInt8.ofNat (start + bits) :: groups.map contByte).length = n + 1 := by
    rw [List.length_cons, List.length_map, hgroups]
  refine ⟨⟨⟨?_, fun b hb => ?_, ?_⟩, ?_⟩, ?_⟩
  · rw [List.headD_cons, hannounced]
    exact hpos
  · obtain ⟨w, -, rfl⟩ := List.mem_map.mp hb
    exact isCont_contByte w
  · rw [List.headD_cons, hannounced]
    exact Nat.le_of_eq hlength
  · rw [List.headD_cons, hannounced, hlength]
  · rw [value, hlead, List.foldl_map]
    simp only [extend_contByte]

theorem complete_two {v : ℕ} (h : v < 0x800) :
    Complete [UInt8.ofNat (0xC0 + v / 64), contByte v] ∧
      value [UInt8.ofNat (0xC0 + v / 64), contByte v] = v := by
  have hseq := complete_of_mem (show (1, 0xC0, 32) ∈ leads by decide)
    (show v / 64 < 32 by omega) (show [v].length = 1 from rfl)
  refine ⟨hseq.1, hseq.2.trans ?_⟩
  simp only [List.foldl]
  omega

theorem complete_three {v : ℕ} (h : v < 0x10000) :
    Complete [UInt8.ofNat (0xE0 + v / 4096), contByte (v / 64), contByte v] ∧
      value [UInt8.ofNat (0xE0 + v / 4096), contByte (v / 64), contByte v] = v := by
  have hseq := complete_of_mem (show (2, 0xE0, 16) ∈ leads by decide)
    (show v / 4096 < 16 by omega) (show [v / 64, v].length = 2 from rfl)
  refine ⟨hseq.1, hseq.2.trans ?_⟩
  simp only [List.foldl]
  omega

theorem complete_four {v : ℕ} (h : v < 0x200000) :
    Complete [UInt8.ofNat (0xF0 + v / 262144), contByte (v / 4096), contByte (v / 64),
        contByte v] ∧
      value [UInt8.ofNat (0xF0 + v / 262144), contByte (v / 4096), contByte (v / 64),
        contByte v] = v := by
  have hseq := complete_of_mem (show (3, 0xF0, 8) ∈ leads by decide)
    (show v / 262144 < 8 by omega) (show [v / 4096, v / 64, v].length = 3 from rfl)
  refine ⟨hseq.1, hseq.2.trans ?_⟩
  simp only [List.foldl]
  omega

/-! ## Characters -/

theorem utf8EncodeChar_ascii {c : Char} (h : c.toNat < 0x80) :
    String.utf8EncodeChar c = [UInt8.ofNat c.toNat] :=
  if_pos (Nat.le_of_lt_succ h)

/-- The encoding of a character from U+0080 on is complete, and spells the character. -/
theorem complete_utf8EncodeChar {c : Char} (h : 0x80 ≤ c.toNat) :
    Complete (String.utf8EncodeChar c) ∧ value (String.utf8EncodeChar c) = c.toNat := by
  have htop : c.toNat < 0x110000 := by
    rcases c.valid with hlow | hhigh
    · exact Nat.lt_trans hlow (by decide)
    · exact hhigh.2
  have hbits : ∀ v reach : ℕ, v < reach → v % reach = v := fun v reach hv => Nat.mod_eq_of_lt hv
  unfold String.utf8EncodeChar
  simp only [Char.toNat] at h htop ⊢
  split
  · omega
  split
  · rw [hbits _ _ (by omega), Nat.add_comm]
    exact complete_two (by omega)
  split
  · rw [hbits (_ / 4096) _ (by omega), Nat.add_comm (_ / 4096)]
    exact complete_three (by omega)
  · rw [hbits (_ / 262144) _ (by omega), Nat.add_comm (_ / 262144)]
    exact complete_four (by omega)

end Utf8
