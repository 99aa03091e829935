import EfiSshServer.Lib.Cells
import EfiSshServer.Input
import EfiSshServer.Entropy

/-!
# `memmove`

`memmove` of `uefirt.c` is a loop over single bytes, from the low end when the destination
lies below the source and from the high end otherwise.  `memmove_copies` says that this
test is the right one: whatever the overlap, the destination ends up with what the source
held before the call.

`TryProcessOne` moves the bytes behind a packet to the front of `rx` with it.
`compact_memmove` connects this to `compact`, which the model of `TryProcessOne` uses in
its place.
-/

namespace EfiSshServer

open StateProgram Cells RecvM

variable {m rx : Bytes} {d s n : ℕ} {r : Receiver}

/-- How a copy ends that does not return: with an access outside of memory, or in
`InsaneLen`, which reports the call and never comes back. -/
inductive MemFault where
  | outside
  | insaneLen
  deriving DecidableEq

/-- `memmove` on one memory, with offsets for the pointers. -/
def memmove (d s n : ℕ) : Program MemFault Bytes ℕ := do
  if d = s ∨ n = 0 then return d
  else if n > rtInsaneLen then throw .insaneLen
  else if d < s then
    copyUp .outside n d s
    return d
  else
    copyDown .outside n d s
    return d

/-! ## The copy -/

theorem memmove_run (hn : n ≤ rtInsaneLen) (hd : d + n ≤ m.length) (hs : s + n ≤ m.length) :
    memmove d s n m = .ok (d, moved m d s n) := by
  unfold memmove
  by_cases hnothing : d = s ∨ n = 0
  · rw [if_pos hnothing]
    rcases hnothing with rfl | rfl
    · rw [moved_self hs]
      rfl
    · rw [moved_zero]
      rfl
  rw [if_neg hnothing, if_neg (Nat.not_lt.mpr hn)]
  by_cases hlt : d < s
  · rw [if_pos hlt, bind_ok (copyUp_run MemFault.outside hd hs (Nat.le_of_lt hlt))]
    rfl
  · rw [if_neg hlt, bind_ok (copyDown_run MemFault.outside hd hs (Nat.le_of_not_lt hlt))]
    rfl

/-- **`memmove` is correct for every overlap.**  With both ranges inside memory the
destination holds what the source held, and nothing else has changed. -/
theorem memmove_copies (m : Bytes) (d s n : ℕ) (hn : n ≤ rtInsaneLen) (hd : d + n ≤ m.length)
    (hs : s + n ≤ m.length) :
    ∃ m', memmove d s n m = .ok (d, m') ∧ m'.length = m.length ∧
      (∀ i < n, m'[d + i]? = m[s + i]?) ∧
      ∀ i, ¬ (d ≤ i ∧ i < d + n) → m'[i]? = m[i]? := by
  refine ⟨moved m d s n, memmove_run hn hd hs, length_moved hd hs, ?_, ?_⟩
  · intro i hi
    rw [getElem?_moved hd hs, if_pos (by omega), Nat.add_sub_cancel_left]
  · intro i hi
    rw [getElem?_moved hd hs, if_neg hi]

/-- Both directions on overlapping ranges. -/
theorem memmove_copies_overlaps :
    (∃ m', memmove 1 0 3 [1, 2, 3, 4, 5] = .ok (1, m') ∧ m'.length = 5 ∧
      (∀ i < 3, m'[1 + i]? = [1, 2, 3, 4, 5][0 + i]?) ∧
      ∀ i, ¬ (1 ≤ i ∧ i < 1 + 3) → m'[i]? = [1, 2, 3, 4, 5][i]?) ∧
    ∃ m', memmove 0 2 3 [1, 2, 3, 4, 5] = .ok (0, m') ∧ m'.length = 5 ∧
      (∀ i < 3, m'[0 + i]? = [1, 2, 3, 4, 5][2 + i]?) ∧
      ∀ i, ¬ (0 ≤ i ∧ i < 0 + 3) → m'[i]? = [1, 2, 3, 4, 5][i]? :=
  ⟨memmove_copies [1, 2, 3, 4, 5] 1 0 3 (by decide) (by decide) (by decide),
    memmove_copies [1, 2, 3, 4, 5] 0 2 3 (by decide) (by decide) (by decide)⟩

/-! ## The receive buffer -/

/-- `rx` holds the received bytes at its start. -/
structure HoldsRx (rx : Bytes) (r : Receiver) : Prop where
  size : rx.length = sshRxBuf
  fits : r.rx.buf.length ≤ sshRxBuf
  live : rx.take r.rx.buf.length = r.rx.buf

/-- Moving the received bytes behind the first `n` to the front of `rx` drops these, and
it is never reported as insane. -/
theorem compact_memmove (h : HoldsRx rx r) (hn : n ≤ r.rx.buf.length) :
    ∃ rx' r', memmove 0 n (r.rx.buf.length - n) rx = .ok (0, rx') ∧
      compact n r = .ok ((), r') ∧ HoldsRx rx' r' := by
  obtain ⟨hsize, hfits, hlive⟩ := h
  have hsane : r.rx.buf.length - n ≤ rtInsaneLen := by
    refine (Nat.sub_le _ _).trans (hfits.trans ?_)
    decide
  have hd : 0 + (r.rx.buf.length - n) ≤ rx.length := by omega
  have hs : n + (r.rx.buf.length - n) ≤ rx.length := by omega
  refine ⟨_, _, memmove_run hsane hd hs, by rw [compact, if_pos hn], ?_, ?_, ?_⟩
  · rw [length_moved hd hs, hsize]
  · show (r.rx.buf.drop n).length ≤ sshRxBuf
    rw [List.length_drop]
    omega
  · show (moved rx 0 n (r.rx.buf.length - n)).take (r.rx.buf.drop n).length = r.rx.buf.drop n
    have hlength : ((rx.drop n).take (r.rx.buf.length - n)).length = r.rx.buf.length - n := by
      rw [List.length_take, List.length_drop]
      omega
    rw [List.length_drop, moved, List.take_zero, List.nil_append,
      List.take_append_of_le_length (Nat.le_of_eq hlength.symm), List.take_take, Nat.min_self,
      ← List.drop_take, hlive]

end EfiSshServer
