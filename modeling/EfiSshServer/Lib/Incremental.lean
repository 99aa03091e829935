import Mathlib.Data.List.Basic
import Mathlib.Order.Basic

/-!
# Decoders that are fed in pieces

A decoder holds a state with the input received so far.  `step` looks at it and
either makes progress or asks for more input; in the second case it may already
have done part of the work.  `run` steps until the decoder asks for input or has
stopped.

The laws say when the pieces do not matter: progress made on a prefix is the
progress made on the whole (`step_progress`), and a step that asks for more has
only done what the step on the longer input would have done first
(`step_wait`).  Then no way of handing over the input changes where it ends:
`run_progress` and `run_wait` say that what the remaining input will lead to
stays the same along the way.
-/

namespace IncrementalDecoder

universe u

structure Decoder (ε σ α : Type u) where
  /-- The states the laws are about. -/
  valid : σ → Prop
  stopped : σ → Bool
  feed : List α → σ → σ
  /-- How much input is held. -/
  size : σ → ℕ
  /-- Whether progress was made, and the state after it. -/
  step : σ → Except ε (Bool × σ)
  valid_feed : ∀ {s} (x : List α), valid s → valid (feed x s)
  valid_step : ∀ {s b t}, valid s → step s = .ok (b, t) → valid t
  stopped_feed : ∀ (x : List α) s, stopped (feed x s) = stopped s
  size_feed : ∀ (x : List α) s, size (feed x s) = size s + x.length
  step_progress : ∀ {s t} (x : List α), valid s → stopped s = false → step s = .ok (true, t) →
    step (feed x s) = .ok (true, feed x t)
  step_wait : ∀ {s t} (x : List α), valid s → stopped s = false → step s = .ok (false, t) →
    step (feed x s) = step (feed x t)
  /-- A step that asks for more does not stop the decoder. -/
  stopped_wait : ∀ {s t}, valid s → stopped s = false → step s = .ok (false, t) →
    stopped t = false
  /-- Progress uses up input or stops the decoder. -/
  size_progress : ∀ {s t}, valid s → stopped s = false → step s = .ok (true, t) →
    stopped t = true ∨ size t < size s

namespace Decoder

variable {ε σ α : Type u} (D : Decoder ε σ α) {s t : σ}

/-- At most `n` steps. -/
def runFor : ℕ → σ → Except ε σ
  | 0, s => .ok s
  | n + 1, s =>
      if D.stopped s then .ok s
      else
        match D.step s with
        | .error e => .error e
        | .ok (false, t) => .ok t
        | .ok (true, t) => runFor n t

/-- Step until the decoder asks for input or has stopped. -/
def run (s : σ) : Except ε σ := D.runFor (D.size s + 1) s

theorem runFor_stopped (h : D.stopped s = true) (n : ℕ) : D.runFor n s = .ok s := by
  cases n with
  | zero => rfl
  | succ n => rw [runFor, if_pos h]

/-- Any two numbers of steps that are enough lead to the same end. -/
theorem runFor_congr (hs : D.valid s) {m n : ℕ} (hm : D.size s < m) (hn : D.size s < n) :
    D.runFor m s = D.runFor n s := by
  induction m generalizing s n with
  | zero => exact absurd hm (Nat.not_lt_zero _)
  | succ m ih =>
      obtain ⟨n, rfl⟩ : ∃ k, n = k + 1 := ⟨n - 1, by omega⟩
      simp only [runFor]
      split
      · rfl
      · next hstop =>
          have hstop : D.stopped s = false := by simpa using hstop
          cases hstep : D.step s with
          | error e => rfl
          | ok out =>
              rcases out with ⟨_ | _, t⟩
              · rfl
              · rcases D.size_progress hs hstop hstep with hstopped | hlt
                · simp only [D.runFor_stopped hstopped]
                · exact ih (D.valid_step hs hstep) (by omega) (by omega)

theorem runFor_eq_run (hs : D.valid s) {n : ℕ} (hn : D.size s < n) : D.runFor n s = D.run s :=
  D.runFor_congr hs hn (Nat.lt_succ_self _)

theorem run_stopped (h : D.stopped s = true) : D.run s = .ok s := D.runFor_stopped h _

/-- Where a step that made progress leads. -/
theorem run_of_progress (hs : D.valid s) (hstop : D.stopped s = false)
    (hstep : D.step s = .ok (true, t)) : D.run s = D.run t := by
  rw [run, runFor, if_neg (by simp [hstop]), hstep]
  show D.runFor (D.size s) t = D.run t
  rcases D.size_progress hs hstop hstep with hstopped | hlt
  · rw [D.runFor_stopped hstopped, D.run_stopped hstopped]
  · exact D.runFor_eq_run (D.valid_step hs hstep) hlt

theorem run_of_error {e : ε} (hstop : D.stopped s = false) (hstep : D.step s = .error e) :
    D.run s = .error e := by
  rw [run, runFor, if_neg (by simp [hstop]), hstep]

theorem run_of_wait (hstop : D.stopped s = false) (hstep : D.step s = .ok (false, t)) :
    D.run s = .ok t := by
  rw [run, runFor, if_neg (by simp [hstop]), hstep]

/-- Progress does not change where the remaining input leads. -/
theorem run_progress (hs : D.valid s) (hstop : D.stopped s = false)
    (hstep : D.step s = .ok (true, t)) (x : List α) : D.run (D.feed x s) = D.run (D.feed x t) :=
  D.run_of_progress (D.valid_feed x hs) ((D.stopped_feed x s).trans hstop)
    (D.step_progress x hs hstop hstep)

/-- Neither does asking for more. -/
theorem run_wait (hs : D.valid s) (hstop : D.stopped s = false)
    (hstep : D.step s = .ok (false, t)) (x : List α) : D.run (D.feed x s) = D.run (D.feed x t) := by
  have ht := D.valid_step hs hstep
  have hstop' := D.stopped_wait hs hstop hstep
  have hsame := D.step_wait x hs hstop hstep
  have hs₁ := (D.stopped_feed x s).trans hstop
  have ht₁ := (D.stopped_feed x t).trans hstop'
  cases hrun : D.step (D.feed x t) with
  | error e => rw [D.run_of_error hs₁ (hsame.trans hrun), D.run_of_error ht₁ hrun]
  | ok out =>
      rcases out with ⟨_ | _, u⟩
      · rw [D.run_of_wait hs₁ (hsame.trans hrun), D.run_of_wait ht₁ hrun]
      · rw [D.run_of_progress (D.valid_feed x hs) hs₁ (hsame.trans hrun),
          D.run_of_progress (D.valid_feed x ht) ht₁ hrun]

end Decoder

end IncrementalDecoder
