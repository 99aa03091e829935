/-!
# Requests that are answered later

A request is submitted, and the other side has it until it is answered.  It can be
cancelled, and whoever asked can give up waiting; in the end what belongs to the request is
retired.  `stage` says which events of a history, the newest first, are stages of which
request.

`status` replays one request, and `RetiredWhen` says in which states it may be retired.
-/

namespace Requests

inductive Stage where
  | submit | answer | cancel | giveUp | retire
  deriving DecidableEq

/-- An overdue request was waited for in vain; an abandoned one was cancelled before that. -/
inductive Status where
  | idle | inFlight | cancelled | overdue | abandoned
  deriving DecidableEq

def Status.next : Status → Stage → Status
  | _, .submit => .inFlight
  | _, .answer | _, .retire => .idle
  | .inFlight, .cancel | .overdue, .cancel => .cancelled
  | .inFlight, .giveUp => .overdue
  | .cancelled, .giveUp => .abandoned
  | s, .cancel | s, .giveUp => s

@[simp] theorem Status.next_submit (s : Status) : s.next .submit = .inFlight := by cases s <;> rfl

@[simp] theorem Status.next_answer (s : Status) : s.next .answer = .idle := by cases s <;> rfl

@[simp] theorem Status.next_retire (s : Status) : s.next .retire = .idle := by cases s <;> rfl

variable {τ ε : Type} [DecidableEq τ] {stage : ε → Option (τ × Stage)} {t u : τ} {e : ε}
  {h : List ε} {x : Stage}

/-- Where the request `t` is. -/
def status (stage : ε → Option (τ × Stage)) (t : τ) : List ε → Status
  | [] => .idle
  | e :: h =>
      match stage e with
      | some (u, x) => if u = t then (status stage t h).next x else status stage t h
      | none => status stage t h

theorem status_of_none (he : stage e = none) : status stage t (e :: h) = status stage t h := by
  rw [status, he]

theorem status_of_ne (he : stage e = some (u, x)) (hne : u ≠ t) :
    status stage t (e :: h) = status stage t h := by
  rw [status, he]
  exact if_neg hne

theorem status_of_eq (he : stage e = some (t, x)) :
    status stage t (e :: h) = (status stage t h).next x := by
  rw [status, he]
  exact if_pos rfl

/-- The event retires a request only in a state that `fine` allows. -/
def RetiredWhen (stage : ε → Option (τ × Stage)) (fine : τ → Status → Prop) (e : ε)
    (h : List ε) : Prop :=
  ∀ t, stage e = some (t, .retire) → fine t (status stage t h)

end Requests
