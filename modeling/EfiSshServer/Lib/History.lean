import Mathlib.Data.List.Basic

/-!
# Histories

The history of a system is a list of events, the newest first, so that recording
an event is `cons` and what comes behind an event in the list is what happened
before it.

* `Along Q` says that every event stands in the relation `Q` to the history before
  it.  A property of runs that speaks about the past of each event has this shape.
* `chronicle f` reads values off the events and lists them in the order in which
  they happened.  Recording more only appends to it, so an index into it keeps its
  meaning for the rest of the run.
-/

namespace History

variable {α β : Type*} {Q : α → List α → Prop} {f : α → Option β} {h es : List α} {e : α}

/-! ## Properties of the past of each event -/

def Along (Q : α → List α → Prop) : List α → Prop
  | [] => True
  | e :: h => Q e h ∧ Along Q h

instance decidableAlong [∀ e h, Decidable (Q e h)] : DecidablePred (Along Q)
  | [] => .isTrue trivial
  | e :: h =>
      have : Decidable (Along Q h) := decidableAlong h
      inferInstanceAs (Decidable (Q e h ∧ Along Q h))

/-- Each event of the history, with what happened before it. -/
theorem along_iff : Along Q h ↔ ∀ after e before, h = after ++ e :: before → Q e before := by
  induction h with
  | nil => simp [Along]
  | cons e h ih =>
      constructor
      · rintro ⟨he, hal⟩ after e' before heq
        cases after with
        | nil =>
            cases heq
            exact he
        | cons _ after =>
            cases heq
            exact ih.mp hal after e' before rfl
      · exact fun hall => ⟨hall [] e h rfl, ih.mpr fun after e' before heq =>
          hall (e :: after) e' before (by rw [heq, List.cons_append])⟩

/-- More events, each of them good whatever of the others came before it. -/
theorem Along.append (hal : Along Q h)
    (hes : ∀ e newer older, es = newer ++ e :: older → Q e (older ++ h)) : Along Q (es ++ h) := by
  induction es with
  | nil => exact hal
  | cons e es ih =>
      refine ⟨hes e [] es rfl, ih fun e' newer older heq => ?_⟩
      exact hes e' (e :: newer) older (by rw [heq, List.cons_append])

/-! ## Reading values off a history -/

/-- What `f` reads off the events, oldest first. -/
def chronicle (f : α → Option β) (h : List α) : List β := (h.filterMap f).reverse

@[simp] theorem chronicle_nil : chronicle f [] = [] := rfl

theorem chronicle_cons_of_some {b : β} (he : f e = some b) :
    chronicle f (e :: h) = chronicle f h ++ [b] := by
  rw [chronicle, List.filterMap_cons_some he, List.reverse_cons, chronicle]

theorem chronicle_cons_of_none (he : f e = none) : chronicle f (e :: h) = chronicle f h := by
  rw [chronicle, List.filterMap_cons_none he, chronicle]

theorem chronicle_append : chronicle f (es ++ h) = chronicle f h ++ chronicle f es := by
  rw [chronicle, List.filterMap_append, List.reverse_append, chronicle, chronicle]

theorem chronicle_append_of_none (hes : ∀ e ∈ es, f e = none) :
    chronicle f (es ++ h) = chronicle f h := by
  rw [chronicle, List.filterMap_append, List.filterMap_eq_nil_iff.mpr hes, List.nil_append,
    chronicle]

end History
