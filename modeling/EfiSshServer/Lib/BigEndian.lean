import Mathlib.Data.List.Basic
import Mathlib.Data.Nat.Digits.Defs
import Mathlib.Tactic.Ring

/-!
# Big-endian integers

A byte string, most significant byte first, is read as an unsigned integer or in two's
complement.  Each length gives every integer at most one representation
(`unsigned_inj`), and a leading zero byte changes the length only.  `IsMinimal` strings
are those that carry no byte more than the sign needs; `IsMinimal.length_le` is what
makes them the shortest ones.
-/

namespace BigEndian

variable {b c : List UInt8} {x : UInt8}

/-! ## Unsigned -/

def unsigned (b : List UInt8) : ℕ := Nat.ofDigits 256 (b.reverse.map UInt8.toNat)

@[simp] theorem unsigned_nil : unsigned [] = 0 := rfl

theorem unsigned_cons (x : UInt8) (b : List UInt8) :
    unsigned (x :: b) = x.toNat * 256 ^ b.length + unsigned b := by
  rw [unsigned, List.reverse_cons, List.map_append, Nat.ofDigits_append, List.map_singleton,
    Nat.ofDigits_singleton, List.length_map, List.length_reverse, ← unsigned]
  ring

private theorem digit_lt (b : List UInt8) : ∀ d ∈ b.reverse.map UInt8.toNat, d < 256 := by
  intro d hd
  obtain ⟨x, -, rfl⟩ := List.mem_map.mp hd
  exact x.toNat_lt

theorem unsigned_lt (b : List UInt8) : unsigned b < 256 ^ b.length := by
  have hlt := Nat.ofDigits_lt_base_pow_length (by decide) (digit_lt b)
  rwa [List.length_map, List.length_reverse] at hlt

theorem unsigned_inj (hlength : b.length = c.length) (h : unsigned b = unsigned c) : b = c := by
  have hlength' : (b.reverse.map UInt8.toNat).length = (c.reverse.map UInt8.toNat).length := by
    simpa using hlength
  have hdigits := Nat.ofDigits_inj_of_len_eq (by decide) hlength' (digit_lt b) (digit_lt c) h
  have hinj : Function.Injective UInt8.toNat := fun _ _ => UInt8.toNat_inj.mp
  exact List.reverse_injective (hinj.list_map hdigits)

theorem unsigned_zero_cons (b : List UInt8) : unsigned (0 :: b) = unsigned b := by
  simp [unsigned_cons]

/-- Leading zeros do not count. -/
theorem unsigned_dropWhile (b : List UInt8) : unsigned (b.dropWhile (· = 0)) = unsigned b := by
  induction b with
  | nil => rfl
  | cons x b ih =>
    by_cases hx : x = 0
    · rw [List.dropWhile_cons_of_pos (by simpa using hx), ih, hx, unsigned_zero_cons]
    · rw [List.dropWhile_cons_of_neg (by simpa using hx)]

/-! ## Two's complement -/

def signed : List UInt8 → ℤ
  | [] => 0
  | x :: b =>
      if x < 0x80 then unsigned (x :: b) else unsigned (x :: b) - 256 ^ (b.length + 1)

theorem signed_cons_of_lt (h : x < 0x80) : signed (x :: b) = unsigned (x :: b) := if_pos h

/-- A string that denotes a natural number has its top bit clear. -/
theorem signed_eq_natCast {n : ℕ} (h : signed b = n) :
    unsigned b = n ∧ ∀ x rest, b = x :: rest → x < 0x80 := by
  cases b with
  | nil =>
    refine ⟨?_, fun _ _ hcons => by cases hcons⟩
    have hzero : (0 : ℤ) = n := h
    exact_mod_cast hzero
  | cons x rest =>
    by_cases hx : x < 0x80
    · rw [signed_cons_of_lt hx] at h
      refine ⟨by exact_mod_cast h, ?_⟩
      rintro _ _ ⟨⟩
      exact hx
    · have hlt := unsigned_lt (x :: rest)
      rw [List.length_cons] at hlt
      rw [signed, if_neg hx] at h
      have hcast : (unsigned (x :: rest) : ℤ) < 256 ^ (rest.length + 1) := by
        exact_mod_cast hlt
      omega

/-! ## The shortest representation -/

/-- No leading zero byte, but for the one that keeps the top bit clear; a top bit that
is clear. -/
def IsMinimal : List UInt8 → Prop
  | [] => True
  | [x] => x ≠ 0 ∧ x < 0x80
  | x :: y :: _ => x < 0x80 ∧ (x = 0 → 0x80 ≤ y)

instance : DecidablePred IsMinimal
  | [] => isTrue trivial
  | [x] => inferInstanceAs (Decidable (x ≠ 0 ∧ x < 0x80))
  | x :: y :: _ => inferInstanceAs (Decidable (x < 0x80 ∧ (x = 0 → 0x80 ≤ y)))

theorem IsMinimal.signed_eq (h : IsMinimal b) : signed b = unsigned b := by
  match b, h with
  | [], _ => rfl
  | [_], h => exact signed_cons_of_lt h.2
  | _ :: _ :: _, h => exact signed_cons_of_lt h.1

/-- With the top bit clear the number takes at most half of the range. -/
theorem unsigned_mul_two_lt (h : ∀ x rest, b = x :: rest → x < 0x80) :
    unsigned b * 2 < 256 ^ b.length := by
  cases b with
  | nil => decide
  | cons x rest =>
    have hx : x.toNat < 128 := UInt8.lt_iff_toNat_lt.mp (h x rest rfl)
    have hrest := unsigned_lt rest
    rw [unsigned_cons, List.length_cons, pow_succ]
    have hmul : x.toNat * 256 ^ rest.length ≤ 127 * 256 ^ rest.length :=
      Nat.mul_le_mul_right _ (by omega)
    omega

/-- A minimal representation of some length denotes a large number. -/
theorem IsMinimal.le_unsigned (h : IsMinimal b) (hne : b ≠ []) :
    256 ^ b.length ≤ unsigned b * 512 := by
  have hone : ∀ {x : UInt8}, x ≠ 0 → 1 ≤ x.toNat := fun {x} hx =>
    Nat.one_le_iff_ne_zero.mpr fun hzero => hx (UInt8.toNat_inj.mp hzero)
  match b, h with
  | [x], h =>
    have hx := hone h.1
    simp only [unsigned_cons, List.length_nil, List.length_cons, unsigned_nil]
    omega
  | x :: y :: rest, h =>
    have hpos : 0 < 256 ^ rest.length := Nat.pow_pos (by decide)
    simp only [unsigned_cons, List.length_cons, pow_succ]
    by_cases hx : x = 0
    · have hy : 128 ≤ y.toNat := UInt8.le_iff_toNat_le.mp (h.2 hx)
      have hmul : 128 * 256 ^ rest.length ≤ y.toNat * 256 ^ rest.length :=
        Nat.mul_le_mul_right _ hy
      omega
    · have hmul : 1 * (256 ^ rest.length * 256) ≤ x.toNat * (256 ^ rest.length * 256) :=
        Nat.mul_le_mul_right _ (hone hx)
      omega

/-- No representation is shorter than a minimal one. -/
theorem IsMinimal.length_le (h : IsMinimal b) (hc : signed c = unsigned b) :
    b.length ≤ c.length := by
  obtain ⟨hvalue, htop⟩ := signed_eq_natCast hc
  by_cases hne : b = []
  · exact hne ▸ Nat.zero_le _
  have hlow := h.le_unsigned hne
  have hhigh := unsigned_mul_two_lt htop
  have hpow : 256 ^ b.length < 256 ^ (c.length + 1) := by
    rw [pow_succ]
    omega
  exact Nat.lt_succ_iff.mp ((Nat.pow_lt_pow_iff_right (by decide)).mp hpow)

/-- The minimal representation of a number is unique. -/
theorem IsMinimal.inj (hb : IsMinimal b) (hc : IsMinimal c) (h : unsigned b = unsigned c) :
    b = c := by
  have hle := hb.length_le (c := c) (by rw [hc.signed_eq, h])
  have hge := hc.length_le (c := b) (by rw [hb.signed_eq, h])
  exact unsigned_inj (le_antisymm hle hge) h

/-- Strip the leading zeros; put one back before a top bit that is set. -/
theorem isMinimal_strip (b : List UInt8) :
    let s := b.dropWhile (· = 0)
    IsMinimal (if 0x80 ≤ s.headD 0 then 0 :: s else s) := by
  intro s
  have hhead : ∀ x rest, s = x :: rest → x ≠ 0 := by
    intro x rest hs hx
    have hnot := List.head_dropWhile_not (fun x : UInt8 => decide (x = 0)) (l := b)
      (by rw [show b.dropWhile (· = 0) = x :: rest from hs]; exact List.cons_ne_nil _ _)
    simp [show b.dropWhile (· = 0) = x :: rest from hs, hx] at hnot
  match hs : s, hhead with
  | [], _ => exact trivial
  | [x], hhead =>
    have hx := hhead x [] rfl
    split
    · next htop => exact ⟨by decide, fun _ => htop⟩
    · next htop => exact ⟨hx, UInt8.not_le.mp htop⟩
  | x :: y :: rest, hhead =>
    have hx := hhead x (y :: rest) rfl
    split
    · next htop => exact ⟨by decide, fun _ => htop⟩
    · next htop => exact ⟨UInt8.not_le.mp htop, fun hzero => absurd hzero hx⟩

end BigEndian
