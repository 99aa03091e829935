import Mathlib.Data.Multiset.Count
import Mathlib.Data.Multiset.AddSub

/-!
# Resources that are taken and given back

A history is a list of events, the newest first.  `use` says which of the events take or
give back a resource, and `held` replays them: it is the multiset of what is still held,
or `none` if something was given back that was not held at that moment.  So a history
after which `held` is `some 0` gave back everything it took, each exactly once.
-/

namespace Resources

variable {α ε : Type*} [DecidableEq α]

inductive Use (α : Type*) where
  | acquire (a : α)
  | release (a : α)
  deriving DecidableEq

variable {use : ε → Option (Use α)} {e : ε} {h : List ε} {a : α} {as : Multiset α}

/-- What is still held. -/
def held (use : ε → Option (Use α)) : List ε → Option (Multiset α)
  | [] => some 0
  | e :: h =>
      match use e with
      | none => held use h
      | some (.acquire a) => (held use h).map (a ::ₘ ·)
      | some (.release a) =>
          (held use h).bind fun as => if a ∈ as then some (as.erase a) else none

theorem held_of_none (he : use e = none) : held use (e :: h) = held use h := by
  rw [held, he]

theorem held_acquire (he : use e = some (.acquire a)) (hheld : held use h = some as) :
    held use (e :: h) = some (a ::ₘ as) := by
  rw [held, he, hheld]
  rfl

theorem held_release (he : use e = some (.release a)) (hheld : held use h = some (a ::ₘ as)) :
    held use (e :: h) = some as := by
  rw [held, he, hheld]
  simp

/-- The balance: what was taken was given back, or is held. -/
theorem held_balance (hheld : held use h = some as) (a : α) :
    h.countP (fun e => decide (use e = some (.acquire a))) =
      h.countP (fun e => decide (use e = some (.release a))) + as.count a := by
  induction h generalizing as with
  | nil =>
      cases hheld
      rfl
  | cons e h ih =>
      rw [held] at hheld
      rw [List.countP_cons, List.countP_cons]
      match huse : use e with
      | none =>
          rw [huse] at hheld
          simpa using ih hheld
      | some (.acquire b) =>
          rw [huse] at hheld
          obtain ⟨bs, hbs, rfl⟩ := Option.map_eq_some_iff.mp hheld
          have hih := ih hbs
          by_cases hb : b = a
          · subst hb
            simp only [decide_true, if_true, Multiset.count_cons_self]
            simp
            omega
          · simp [hb, Multiset.count_cons_of_ne (Ne.symm hb), hih]
      | some (.release b) =>
          rw [huse] at hheld
          obtain ⟨bs, hbs, hrelease⟩ := Option.bind_eq_some_iff.mp hheld
          split at hrelease
          · next hmem =>
            cases hrelease
            have hih := ih hbs
            by_cases hb : b = a
            · subst hb
              have hcount := Multiset.count_pos.mpr hmem
              simp [Multiset.count_erase_self]
              omega
            · simp [hb, Multiset.count_erase_of_ne (Ne.symm hb), hih]
          · cases hrelease

end Resources
