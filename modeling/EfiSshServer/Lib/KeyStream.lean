import Mathlib.Data.List.Basic

/-!
# Keys longer than a hash

A hash gives a fixed number of bytes.  A key that needs more of them is the start of a
stream of blocks: the first is the hash of a secret and a label, and each other one the
hash of the secret and of all blocks before it.

What a block is does not depend on how many of them are computed, so a key of any length is
the start of every longer one (`take_key`) and a start of any number of blocks that is
large enough (`take_blocks`).
-/

namespace KeyStream

variable {α : Type*} (hash : List α → List α) (size : ℕ) (secret label : List α) {m n need : ℕ}

/-- The first `n + 1` blocks. -/
def blocks : ℕ → List α
  | 0 => hash (secret ++ label)
  | n + 1 => blocks n ++ hash (secret ++ blocks n)

/-- The first `need` elements of the stream; a block has `size` of them. -/
def key (need : ℕ) : List α := (blocks hash secret label (need / size)).take need

variable {hash size secret label}

theorem length_blocks (hsize : ∀ b, (hash b).length = size) (n : ℕ) :
    (blocks hash secret label n).length = (n + 1) * size := by
  induction n with
  | zero => rw [blocks, hsize, Nat.zero_add, Nat.one_mul]
  | succ n ih => rw [blocks, List.length_append, ih, hsize, ← Nat.succ_mul]

theorem blocks_mono (h : m ≤ n) : blocks hash secret label m <+: blocks hash secret label n := by
  induction h with
  | refl => exact List.prefix_rfl
  | step _ ih => exact ih.trans (List.prefix_append _ _)

theorem take_eq_of_isPrefix {xs ys : List α} (h : xs <+: ys) (hneed : need ≤ xs.length) :
    xs.take need = ys.take need := by
  obtain ⟨rest, rfl⟩ := h
  exact (List.take_append_of_le_length hneed).symm

theorem le_length_blocks (hsize : ∀ b, (hash b).length = size) (hpos : 0 < size) (need : ℕ) :
    need ≤ (blocks hash secret label (need / size)).length := by
  rw [length_blocks hsize, Nat.mul_comm]
  exact Nat.le_of_lt (Nat.lt_mul_div_succ need hpos)

/-- Enough blocks start with the key. -/
theorem take_blocks (hsize : ∀ b, (hash b).length = size) (hpos : 0 < size)
    (hneed : need ≤ (blocks hash secret label n).length) :
    (blocks hash secret label n).take need = key hash size secret label need := by
  rcases Nat.le_total n (need / size) with h | h
  · exact take_eq_of_isPrefix (blocks_mono h) hneed
  · exact (take_eq_of_isPrefix (blocks_mono h) (le_length_blocks hsize hpos need)).symm

/-- A key that is cut off is the shorter key. -/
theorem take_key (hsize : ∀ b, (hash b).length = size) (hpos : 0 < size) (h : m ≤ n) :
    (key hash size secret label n).take m = key hash size secret label m := by
  rw [key, List.take_take, Nat.min_eq_left h]
  exact take_blocks hsize hpos (Nat.le_trans h (le_length_blocks hsize hpos n))

end KeyStream
