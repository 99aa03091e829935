import Mathlib.Data.List.Basic
import EfiSshServer.Lib.Program

/-!
# Arrays with checked accesses

The contents of an array are a list, and its length is the size of the array.  `load` and
`store` stop with a fault outside of it, so a program over arrays that cannot fault stays
inside all of them.

`copyUp` and `copyDown` copy one cell after the other inside one array, from the low end or
from the high end.  Where the two ranges overlap, each overwrites cells of its own source.
`moved` is what the copy is meant to do; each direction does it if the cells it overwrites
have been read by then.

`fetch` reads an array that the program does not change, and `copyFrom` copies from one.
`onLocal` gives a program an array of its own, which lives as long as the program runs.
-/

namespace StateProgram

namespace Cells

variable {ε σ α β : Type} {m src : List α} {e : ε} {i n d s : ℕ} {v : α}

/-! ## Single cells -/

/-- The cell at `i`, or the fault `e` outside the array. -/
def load (e : ε) (i : ℕ) : Program ε (List α) α := fun m =>
  match m[i]? with
  | some v => .ok (v, m)
  | none => .error e

def store (e : ε) (i : ℕ) (v : α) : Program ε (List α) Unit := fun m =>
  if i < m.length then .ok ((), m.set i v) else .error e

/-- The cell at `i` of an array that is not the state. -/
def fetch (e : ε) (m : List α) (i : ℕ) : Program ε σ α :=
  match m[i]? with
  | some v => return v
  | none => throw e

/-- Run `m` on an array of its own that starts as `cells`, and return what is in it then. -/
def onLocal (cells : List α) (m : Program ε (List α) β) : Program ε σ (β × List α) := fun s =>
  match m cells with
  | .ok out => .ok (out, s)
  | .error e => .error e

section Rules

variable {fault : ε → Prop}

theorem wp_load {post : α → List α → Prop} (h : m[i]? = some v) (hpost : post v m) :
    wp (load e i) post fault m := by
  simp only [wp, load, h]
  exact hpost

theorem wp_store {post : Unit → List α → Prop} (h : i < m.length) (hpost : post () (m.set i v)) :
    wp (store e i v) post fault m := by
  simp only [wp, store, if_pos h]
  exact hpost

theorem wp_fetch {post : α → σ → Prop} {s : σ} (h : m[i]? = some v) (hpost : post v s) :
    wp (fetch e m i) post fault s := by
  simp only [fetch, h]
  exact hpost

theorem wp_onLocal {post : β × List α → σ → Prop} {p : Program ε (List α) β} {s : σ}
    (h : wp p (fun b cells => post (b, cells) s) fault m) : wp (onLocal m p) post fault s := by
  unfold wp onLocal at *
  split at h <;> simp_all

end Rules

/-! ## Copies inside one array -/

/-- `n` cells from `s` on, copied to `d`, the lowest first. -/
def copyUp (e : ε) : (n d s : ℕ) → Program ε (List α) Unit
  | 0, _, _ => return ()
  | n + 1, d, s => do
      store e d (← load e s)
      copyUp e n (d + 1) (s + 1)

/-- The same with the highest first. -/
def copyDown (e : ε) : (n d s : ℕ) → Program ε (List α) Unit
  | 0, _, _ => return ()
  | n + 1, d, s => do
      store e (d + n) (← load e (s + n))
      copyDown e n d s

/-- The cells from `d` on are the `n` cells that were at `s`. -/
def moved (m : List α) (d s n : ℕ) : List α :=
  m.take d ++ ((m.drop s).take n ++ m.drop (d + n))

theorem length_moved (hd : d + n ≤ m.length) (hs : s + n ≤ m.length) :
    (moved m d s n).length = m.length := by
  simp only [moved, List.length_append, List.length_take, List.length_drop]
  omega

/-- Each cell: inside the destination what the source held, elsewhere what it was. -/
theorem getElem?_moved (hd : d + n ≤ m.length) (hs : s + n ≤ m.length) (i : ℕ) :
    (moved m d s n)[i]? = if d ≤ i ∧ i < d + n then m[s + (i - d)]? else m[i]? := by
  have hfront : (m.take d).length = d := by rw [List.length_take]; omega
  have hmid : ((m.drop s).take n).length = n := by rw [List.length_take, List.length_drop]; omega
  by_cases hlow : i < d
  · rw [moved, List.getElem?_append_left (by omega), List.getElem?_take_of_lt hlow,
      if_neg (by omega)]
  rw [moved, List.getElem?_append_right (by omega), hfront]
  by_cases hhigh : i < d + n
  · rw [List.getElem?_append_left (by omega), List.getElem?_take_of_lt (by omega),
      List.getElem?_drop, if_pos (by omega)]
  · rw [List.getElem?_append_right (by omega), hmid, List.getElem?_drop, if_neg (by omega),
      show d + n + (i - d - n) = i by omega]

theorem moved_zero (m : List α) (d s : ℕ) : moved m d s 0 = m := by
  rw [moved, List.take_zero, List.nil_append, Nat.add_zero, List.take_append_drop]

theorem moved_self (hs : s + n ≤ m.length) : moved m s s n = m := by
  refine List.ext_getElem? fun i => ?_
  rw [getElem?_moved hs hs]
  split
  · rw [show s + (i - s) = i by omega]
  · rfl

/-- The lowest cell first: from then on the source must lie above it. -/
theorem moved_succ_up (hd : d + (n + 1) ≤ m.length) (hs : s + (n + 1) ≤ m.length)
    (hle : d ≤ s) (hv : m[s]? = some v) :
    moved (m.set d v) (d + 1) (s + 1) n = moved m d s (n + 1) := by
  refine List.ext_getElem? fun i => ?_
  rw [getElem?_moved (by rw [List.length_set]; omega) (by rw [List.length_set]; omega),
    getElem?_moved hd hs]
  simp only [List.getElem?_set]
  by_cases hfirst : i = d
  · subst hfirst
    rw [if_neg (by omega), if_pos rfl, if_pos (by omega), if_pos (by omega), Nat.sub_self,
      Nat.add_zero, hv]
  by_cases hin : d + 1 ≤ i ∧ i < d + 1 + n
  · rw [if_pos hin, if_neg (by omega), if_pos (by omega),
      show s + 1 + (i - (d + 1)) = s + (i - d) by omega]
  · rw [if_neg hin, if_neg (by omega), if_neg (by omega)]

/-- The highest cell first: from then on the source must lie below it. -/
theorem moved_succ_down (hd : d + (n + 1) ≤ m.length) (hs : s + (n + 1) ≤ m.length)
    (hle : s ≤ d) (hv : m[s + n]? = some v) :
    moved (m.set (d + n) v) d s n = moved m d s (n + 1) := by
  refine List.ext_getElem? fun i => ?_
  rw [getElem?_moved (by rw [List.length_set]; omega) (by rw [List.length_set]; omega),
    getElem?_moved hd hs]
  simp only [List.getElem?_set]
  by_cases hlast : i = d + n
  · subst hlast
    rw [if_neg (by omega), if_pos rfl, if_pos (by omega), if_pos (by omega),
      show s + (d + n - d) = s + n by omega, hv]
  by_cases hin : d ≤ i ∧ i < d + n
  · rw [if_pos hin, if_neg (by omega), if_pos (by omega)]
  · rw [if_neg hin, if_neg (by omega), if_neg (by omega)]

theorem copyUp_run (e : ε) (hd : d + n ≤ m.length) (hs : s + n ≤ m.length) (hle : d ≤ s) :
    copyUp e n d s m = .ok ((), moved m d s n) := by
  induction n generalizing m d s with
  | zero =>
      rw [moved_zero]
      rfl
  | succ n ih =>
      have hv : m[s]? = some m[s] := List.getElem?_eq_getElem (by omega)
      have hload : load e s m = .ok (m[s], m) := by rw [load, hv]
      have hstore : store e d m[s] m = .ok ((), m.set d m[s]) := by rw [store, if_pos (by omega)]
      rw [copyUp, bind_ok hload, bind_ok hstore, ih, moved_succ_up hd hs hle hv]
      · rw [List.length_set]
        omega
      · rw [List.length_set]
        omega
      · omega

theorem copyDown_run (e : ε) (hd : d + n ≤ m.length) (hs : s + n ≤ m.length) (hle : s ≤ d) :
    copyDown e n d s m = .ok ((), moved m d s n) := by
  induction n generalizing m with
  | zero =>
      rw [moved_zero]
      rfl
  | succ n ih =>
      have hv : m[s + n]? = some m[s + n] := List.getElem?_eq_getElem (by omega)
      have hload : load e (s + n) m = .ok (m[s + n], m) := by rw [load, hv]
      have hstore : store e (d + n) m[s + n] m = .ok ((), m.set (d + n) m[s + n]) := by
        rw [store, if_pos (by omega)]
      rw [copyDown, bind_ok hload, bind_ok hstore, ih, moved_succ_down hd hs hle hv]
      · rw [List.length_set]
        omega
      · rw [List.length_set]
        omega

/-! ## Writing one part after the other -/

/-- The cells from `d` on are `xs`. -/
def written (m : List α) (d : ℕ) (xs : List α) : List α :=
  m.take d ++ (xs ++ m.drop (d + xs.length))

variable {xs ys : List α}

theorem length_written (h : d + xs.length ≤ m.length) : (written m d xs).length = m.length := by
  simp only [written, List.length_append, List.length_take, List.length_drop]
  omega

theorem written_nil (m : List α) (d : ℕ) : written m d [] = m := by
  rw [written, List.nil_append, List.length_nil, Nat.add_zero, List.take_append_drop]

/-- Two parts that lie side by side. -/
theorem written_append (h : d + xs.length ≤ m.length) :
    written (written m d xs) (d + xs.length) ys = written m d (xs ++ ys) := by
  have hfront : (m.take d ++ xs).length = d + xs.length := by
    rw [List.length_append, List.length_take]
    omega
  have htake : (written m d xs).take (d + xs.length) = m.take d ++ xs := by
    rw [written, ← List.append_assoc, ← hfront, List.take_left]
  have hdrop : (written m d xs).drop (d + xs.length + ys.length) =
      m.drop (d + (xs ++ ys).length) := by
    rw [written, ← List.append_assoc, ← List.drop_drop, ← hfront, List.drop_left, hfront,
      List.drop_drop, List.length_append, Nat.add_assoc]
  rw [written, htake, hdrop, written, List.append_assoc, List.append_assoc]

/-- Parts that fill the array. -/
theorem written_all (h : xs.length = m.length) : written m 0 xs = xs := by
  rw [written, List.take_zero, List.nil_append, Nat.zero_add, h, List.drop_length,
    List.append_nil]

theorem store_run (e : ε) (h : d < m.length) (v : α) :
    store e d v m = .ok ((), written m d [v]) := by
  rw [store, if_pos h, List.set_eq_take_append_cons_drop, if_pos h]
  rfl

/-- A cell where the part so far ends. -/
theorem store_after (e : ε) {p : ℕ} (v : α) (hp : p = d + xs.length) (h : p < m.length) :
    store e p v (written m d xs) = .ok ((), written m d (xs ++ [v])) := by
  subst hp
  have hxs : d + xs.length ≤ m.length := Nat.le_of_lt h
  rw [store_run e (by rw [length_written hxs]; exact h) v, written_append hxs]

/-- `n` cells of `src` from `i` on, copied to `d`. -/
def copyFrom (e : ε) (src : List α) : (n i d : ℕ) → Program ε (List α) Unit
  | 0, _, _ => return ()
  | n + 1, i, d => do
      store e d (← fetch e src i)
      copyFrom e src n (i + 1) (d + 1)

theorem copyFrom_run (e : ε) (hsrc : i + n ≤ src.length) (hm : d + n ≤ m.length) :
    copyFrom e src n i d m = .ok ((), written m d ((src.drop i).take n)) := by
  induction n generalizing m i d with
  | zero =>
      rw [List.take_zero, written_nil]
      rfl
  | succ n ih =>
      have hv : src[i]? = some src[i] := List.getElem?_eq_getElem (by omega)
      have hfetch : fetch e src i m = .ok (src[i], m) := by
        rw [fetch, hv]
        rfl
      have hroom : d + [src[i]].length ≤ m.length := by
        rw [List.length_singleton]
        omega
      have hcons : (src.drop i).take (n + 1) = [src[i]] ++ (src.drop (i + 1)).take n := by
        rw [List.drop_eq_getElem_cons (by omega), List.take_succ_cons]
        rfl
      rw [copyFrom, bind_ok hfetch, bind_ok (store_run e (by omega) src[i]), hcons,
        ← written_append hroom]
      apply ih
      · omega
      · rw [length_written hroom]
        omega

/-- A copy to where the part so far ends. -/
theorem copyFrom_after (e : ε) {p : ℕ} (hsrc : i + n ≤ src.length) (hp : p = d + xs.length)
    (h : p + n ≤ m.length) :
    copyFrom e src n i p (written m d xs) =
      .ok ((), written m d (xs ++ (src.drop i).take n)) := by
  subst hp
  have hxs : d + xs.length ≤ m.length := by omega
  rw [copyFrom_run e hsrc (by rw [length_written hxs]; exact h), written_append hxs]

end Cells

end StateProgram
