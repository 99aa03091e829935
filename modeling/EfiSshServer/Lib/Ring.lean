import Mathlib.Data.List.Basic
import Mathlib.Data.List.Range

/-!
# Ring buffers that keep one cell free

A `Ring α n` is an array of `n` cells with a position to write next (`head`) and
a position to read next (`tail`), both below `n` by their type.  It is empty
when the two meet and full when writing one more cell would make them meet, so
it holds at most `n - 1` items.

`toList` reads off the queue a ring stands for.  `push` and `pop` are the queue
operations on it (`toList_push`, `toList_pop`), a push fails exactly when `n - 1`
items are queued (`isFull_iff`), and the list operations `pushAll` and `popUpTo`
are an append and a split of the queue.
-/

namespace RingBuffer

variable {α : Type*} {n : ℕ}

/-- The position after `i`, wrapping at `n`. -/
def next (i : Fin n) : Fin n := ⟨(i + 1) % n, Nat.mod_lt _ (Nat.zero_lt_of_lt i.isLt)⟩

structure Ring (α : Type*) (n : ℕ) where
  cells : ℕ → α
  head : Fin n
  tail : Fin n

namespace Ring

def isEmpty (r : Ring α n) : Bool := r.head = r.tail

def isFull (r : Ring α n) : Bool := next r.head = r.tail

/-- Write `x` at the head; the caller has checked that the ring is not full. -/
def push (r : Ring α n) (x : α) : Ring α n :=
  { r with cells := Function.update r.cells r.head x, head := next r.head }

/-- Drop the item at the tail; the caller has checked that there is one. -/
def pop (r : Ring α n) : Ring α n := { r with tail := next r.tail }

/-- Push items until one does not fit; that one and the rest are dropped. -/
def pushAll (r : Ring α n) : List α → Ring α n
  | [] => r
  | x :: xs => if r.isFull then r else (r.push x).pushAll xs

/-- Whether pushing these items meets a full ring. -/
def drops (r : Ring α n) : List α → Bool
  | [] => false
  | x :: xs => r.isFull || (r.push x).drops xs

/-- Take up to `k` items off the tail. -/
def popUpTo (r : Ring α n) : ℕ → List α × Ring α n
  | 0 => ([], r)
  | k + 1 =>
      if r.isEmpty then ([], r)
      else (r.cells r.tail :: (r.pop.popUpTo k).1, (r.pop.popUpTo k).2)

/-! ## The queue a ring stands for -/

/-- The number of queued items. -/
def count (r : Ring α n) : ℕ := (r.head + n - r.tail) % n

/-- The queued items, oldest first. -/
def toList (r : Ring α n) : List α :=
  (List.range r.count).map fun i => r.cells ((r.tail + i) % n)

@[simp] theorem length_toList (r : Ring α n) : r.toList.length = r.count := by
  simp [toList]

theorem count_eq (r : Ring α n) :
    r.count = if r.tail.val ≤ r.head then r.head.val - r.tail else r.head + n - r.tail := by
  have hh := r.head.isLt
  have ht := r.tail.isLt
  unfold count
  split
  · rw [show r.head.val + n - r.tail = (r.head.val - r.tail) + n by omega, Nat.add_mod_right,
      Nat.mod_eq_of_lt (by omega)]
  · exact Nat.mod_eq_of_lt (by omega)

theorem next_val (i : Fin n) : (next i).val = if i.val + 1 = n then 0 else i.val + 1 := by
  have hi := i.isLt
  simp only [next]
  split
  · next h => rw [h, Nat.mod_self]
  · exact Nat.mod_eq_of_lt (by omega)

theorem count_lt (r : Ring α n) : r.count < n :=
  Nat.mod_lt _ (Nat.zero_lt_of_lt r.head.isLt)

theorem isEmpty_iff (r : Ring α n) : r.isEmpty = true ↔ r.count = 0 := by
  have hh := r.head.isLt
  have ht := r.tail.isLt
  simp only [isEmpty, decide_eq_true_eq, Fin.ext_iff, count_eq]
  split <;> omega

theorem isEmpty_iff_toList (r : Ring α n) : r.isEmpty = true ↔ r.toList = [] := by
  rw [isEmpty_iff, ← List.length_eq_zero_iff, length_toList]

/-- A ring is full when all cells but one are in use. -/
theorem isFull_iff (r : Ring α n) : r.isFull = true ↔ r.count + 1 = n := by
  have hh := r.head.isLt
  have ht := r.tail.isLt
  simp only [isFull, decide_eq_true_eq, Fin.ext_iff, next_val, count_eq]
  split <;> split <;> omega

theorem count_push (r : Ring α n) (x : α) (h : r.isFull = false) :
    (r.push x).count = r.count + 1 := by
  have hh := r.head.isLt
  have ht := r.tail.isLt
  have hfull : ¬ r.count + 1 = n := by simpa [h] using r.isFull_iff
  rw [count_eq] at hfull ⊢
  rw [count_eq]
  simp only [push, next_val]
  split at hfull <;> split <;> split <;> omega

theorem count_pop (r : Ring α n) (h : r.isEmpty = false) : r.count = r.pop.count + 1 := by
  have hh := r.head.isLt
  have ht := r.tail.isLt
  have hne : ¬ r.count = 0 := by simpa [h] using r.isEmpty_iff
  rw [count_eq] at hne ⊢
  rw [count_eq]
  simp only [pop, next_val]
  split at hne <;> split <;> split <;> split <;> omega

/-- Positions of queued items differ from the head. -/
theorem index_ne_head (r : Ring α n) {i : ℕ} (hi : i < r.count) :
    (r.tail.val + i) % n ≠ r.head := by
  have hh := r.head.isLt
  have ht := r.tail.isLt
  rw [count_eq] at hi
  by_cases hwrap : r.tail.val + i < n
  · rw [Nat.mod_eq_of_lt hwrap]
    split at hi <;> omega
  · rw [Nat.mod_eq_sub_mod (by omega), Nat.mod_eq_of_lt (by split at hi <;> omega)]
    split at hi <;> omega

theorem index_count (r : Ring α n) : (r.tail.val + r.count) % n = r.head := by
  have hh := r.head.isLt
  have ht := r.tail.isLt
  rw [count_eq]
  split
  · rw [show r.tail.val + (r.head.val - r.tail) = r.head by omega, Nat.mod_eq_of_lt hh]
  · rw [show r.tail.val + (r.head.val + n - r.tail) = r.head + n by omega, Nat.add_mod_right,
      Nat.mod_eq_of_lt hh]

theorem toList_push (r : Ring α n) (x : α) (h : r.isFull = false) :
    (r.push x).toList = r.toList ++ [x] := by
  rw [toList, count_push r x h, List.range_succ, List.map_append]
  congr 1
  · refine List.map_congr_left fun i hi => ?_
    exact Function.update_of_ne (r.index_ne_head (List.mem_range.mp hi)) _ _
  · simp [push, r.index_count]

theorem toList_pop (r : Ring α n) (h : r.isEmpty = false) :
    r.toList = r.cells r.tail :: r.pop.toList := by
  rw [toList, count_pop r h, List.range_succ_eq_map, List.map_cons, List.map_map, toList]
  congr 1
  · simp [Nat.mod_eq_of_lt r.tail.isLt]
  · refine List.map_congr_left fun i _ => ?_
    simp only [Function.comp_apply, pop, next, Nat.mod_add_mod]
    congr 2
    omega

/-! ## Runs of pushes and pops -/

/-- When all of it fits, no push meets a full ring. -/
theorem drops_of_fits (xs : List α) (r : Ring α n) (h : r.count + xs.length < n) :
    r.drops xs = false := by
  induction xs generalizing r with
  | nil => rfl
  | cons x xs ih =>
      rw [List.length_cons] at h
      have hroom : r.isFull = false := by
        rw [← Bool.not_eq_true, isFull_iff]
        omega
      rw [drops, hroom, Bool.false_or]
      refine ih (r.push x) ?_
      rw [count_push r x hroom]
      omega

theorem pushAll_of_full (xs : List α) (r : Ring α n) (h : r.isFull = true) :
    r.pushAll xs = r := by
  cases xs with
  | nil => rfl
  | cons x xs => rw [pushAll, if_pos h]

theorem pushAll_append (xs ys : List α) (r : Ring α n) :
    r.pushAll (xs ++ ys) = (r.pushAll xs).pushAll ys := by
  induction xs generalizing r with
  | nil => rfl
  | cons x xs ih =>
      rw [List.cons_append, pushAll, pushAll]
      split
      · next hfull => rw [pushAll_of_full ys r hfull]
      · exact ih (r.push x)

/-- The part of `xs` that fits is appended to the queue. -/
theorem toList_pushAll (xs : List α) (r : Ring α n) :
    (r.pushAll xs).toList = r.toList ++ xs.take (n - 1 - r.count) := by
  induction xs generalizing r with
  | nil => simp [pushAll]
  | cons x xs ih =>
      unfold pushAll
      have hlt := r.count_lt
      split
      · next hfull =>
          have hcount := r.isFull_iff.mp hfull
          rw [show n - 1 - r.count = 0 by omega, List.take_zero, List.append_nil]
      · next hfull =>
          have hroom : r.isFull = false := by simpa using hfull
          have hcount : ¬ r.count + 1 = n := fun h => hfull (r.isFull_iff.mpr h)
          rw [ih, toList_push r x hroom, count_push r x hroom,
            show n - 1 - r.count = (n - 1 - (r.count + 1)) + 1 by omega, List.take_succ_cons,
            List.append_assoc, List.singleton_append]

theorem toList_pushAll_of_fits (xs : List α) (r : Ring α n) (h : r.count + xs.length < n) :
    (r.pushAll xs).toList = r.toList ++ xs := by
  rw [toList_pushAll, List.take_of_length_le (by omega)]

/-- Popping splits the queue. -/
theorem popUpTo_append (k : ℕ) (r : Ring α n) :
    r.toList = (r.popUpTo k).1 ++ (r.popUpTo k).2.toList := by
  induction k generalizing r with
  | zero => rfl
  | succ k ih =>
      unfold popUpTo
      split
      · rfl
      · next hne => rw [List.cons_append, ← ih r.pop, toList_pop r (by simpa using hne)]

theorem length_popUpTo (k : ℕ) (r : Ring α n) : (r.popUpTo k).1.length = min k r.count := by
  induction k generalizing r with
  | zero => simp [popUpTo]
  | succ k ih =>
      unfold popUpTo
      split
      · next hempty =>
          rw [r.isEmpty_iff.mp hempty]
          rfl
      · next hne =>
          have hcount := count_pop r (by simpa using hne)
          rw [List.length_cons, ih r.pop]
          omega

end Ring

end RingBuffer
