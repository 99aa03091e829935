import Mathlib.Logic.Relation

/-!
# State programs with faults, and their weakest preconditions

A `Program ε σ α` reads and writes a state of type `σ`, returns an `α`, and may
stop with a fault of type `ε`: an access that has no defined result, after which
there is no state to speak of.

`wp m post fault s` says that `m`, started in `s`, either returns a value and a
state satisfying `post`, or stops with a fault satisfying `fault`.  The two
readings used most are `fault := fun _ => False` (the program returns) and
`fault := fun _ => True` (if it returns, then `post`).

The rules below take a program apart along its text.  `zoom` runs a program on a
component of a larger state; `wp_zoom` is its frame rule.
-/

namespace StateProgram

universe u

variable {ε σ τ α β : Type u}

/-- A program over the state `σ` that returns an `α` or stops with a fault. -/
abbrev Program (ε σ α : Type u) := StateT σ (Except ε) α

/-- `m` started in `s` returns into `post` or stops with a fault in `fault`. -/
def wp (m : Program ε σ α) (post : α → σ → Prop) (fault : ε → Prop) (s : σ) : Prop :=
  match m s with
  | .ok (a, s') => post a s'
  | .error e => fault e

variable {post : α → σ → Prop} {fault : ε → Prop} {s s' : σ}

/-! ## The rules

They are equations between assertions, so that they also rewrite a program whose
starting state is still to be bound. -/

@[simp] theorem wp_pure (a : α) : wp (pure a : Program ε σ α) post fault = post a :=
  rfl

@[simp] theorem wp_get {post : σ → σ → Prop} :
    wp (get : Program ε σ σ) post fault = fun s => post s s :=
  rfl

@[simp] theorem wp_set {post : PUnit → σ → Prop} (t : σ) :
    wp (set t : Program ε σ PUnit) post fault = fun _ => post ⟨⟩ t :=
  rfl

@[simp] theorem wp_modify {post : PUnit → σ → Prop} (f : σ → σ) :
    wp (modify f : Program ε σ PUnit) post fault = fun s => post ⟨⟩ (f s) :=
  rfl

@[simp] theorem wp_throw (e : ε) :
    wp (throw e : Program ε σ α) post fault = fun _ => fault e :=
  rfl

@[simp] theorem wp_bind (m : Program ε σ α) (f : α → Program ε σ β) {post : β → σ → Prop} :
    wp (m >>= f) post fault = wp m (fun a => wp (f a) post fault) fault := by
  funext s
  simp only [wp, bind, StateT.bind, Except.bind]
  cases m s <;> rfl

@[simp] theorem wp_map (f : α → β) (m : Program ε σ α) {post : β → σ → Prop} :
    wp (f <$> m) post fault = wp m (fun a => post (f a)) fault := by
  funext s
  simp only [wp, Functor.map, StateT.map, bind, Except.bind]
  cases m s <;> rfl

theorem wp_ite {c : Prop} [Decidable c] {m n : Program ε σ α} :
    wp (if c then m else n) post fault =
      fun s => (c → wp m post fault s) ∧ (¬c → wp n post fault s) := by
  funext s
  split <;> simp_all

/-- The rule for a test, one branch at a time. -/
theorem wp.ite {c : Prop} [Decidable c] {m n : Program ε σ α} (hthen : c → wp m post fault s)
    (helse : ¬c → wp n post fault s) : wp (if c then m else n) post fault s := by
  rw [wp_ite]
  exact ⟨hthen, helse⟩

/-- The rule of consequence. -/
theorem wp.mono {m : Program ε σ α} {post' : α → σ → Prop} {fault' : ε → Prop}
    (h : wp m post fault s) (hpost : ∀ a t, post a t → post' a t)
    (hfault : ∀ e, fault e → fault' e) : wp m post' fault' s := by
  unfold wp at h ⊢
  split at h <;> simp_all

theorem wp.imp {m : Program ε σ α} {post' : α → σ → Prop}
    (h : wp m post fault s) (hpost : ∀ a t, post a t → post' a t) : wp m post' fault s :=
  h.mono hpost fun _ he => he

theorem wp.and {m : Program ε σ α} {post' : α → σ → Prop} {fault' : ε → Prop}
    (h : wp m post fault s) (h' : wp m post' fault' s) :
    wp m (fun a t => post a t ∧ post' a t) fault s := by
  unfold wp at h h' ⊢
  split at h <;> simp_all

theorem wp.both {m : Program ε σ α} {post' : α → σ → Prop} (h : wp m post fault s)
    (h' : wp m post' fault s) : wp m (fun a t => post a t ∧ post' a t) fault s :=
  h.and h'

/-- Nothing is asked of a program. -/
theorem wp.trivial {m : Program ε σ α} : wp m (fun _ _ => True) (fun _ => True) s := by
  unfold wp
  split <;> exact True.intro

/-- What a weakest precondition says about a run that returned. -/
theorem wp.ok {m : Program ε σ α} {a : α} (h : wp m post fault s) (hrun : m s = .ok (a, s')) :
    post a s' := by
  simpa [wp, hrun] using h

/-- What a weakest precondition says about a run that stopped with a fault. -/
theorem wp.error {m : Program ε σ α} {e : ε} (h : wp m post fault s) (hrun : m s = .error e) :
    fault e := by
  simpa [wp, hrun] using h

/-- A program that cannot fault returns. -/
theorem wp.returns {m : Program ε σ α} (h : wp m post (fun _ => False) s) :
    ∃ a s', m s = .ok (a, s') ∧ post a s' := by
  unfold wp at h
  split at h
  · exact ⟨_, _, by assumption, h⟩
  · exact h.elim

/-- Any program meets the postcondition that restates its own result. -/
theorem wp_of_run {m : Program ε σ α} {a : α} {t : σ} (hrun : m s = .ok (a, t)) (h : post a t) :
    wp m post fault s := by
  simpa [wp, hrun] using h

/-- Weakest preconditions, from what the program does. -/
theorem wp_of_forall {m : Program ε σ α} (hpost : ∀ a t, m s = .ok (a, t) → post a t)
    (hfault : ∀ e, m s = .error e → fault e) : wp m post fault s := by
  unfold wp
  split
  · exact hpost _ _ (by assumption)
  · exact hfault _ (by assumption)

theorem bind_ok {m : Program ε σ α} {k : α → Program ε σ β} {a : α} (h : m s = .ok (a, s')) :
    (m >>= k) s = k a s' := by
  simp only [bind, StateT.bind, Except.bind, h]

theorem bind_error {m : Program ε σ α} {k : α → Program ε σ β} {e : ε} (h : m s = .error e) :
    (m >>= k) s = .error e := by
  simp only [bind, StateT.bind, Except.bind, h]

/-! ## Running a program on a component -/

/-- Run `m` on the component of the state that `get` reads and `put` replaces. -/
def zoom (get : σ → τ) (put : τ → σ → σ) (m : Program ε τ α) : Program ε σ α := fun s =>
  match m (get s) with
  | .ok (a, t) => .ok (a, put t s)
  | .error e => .error e

/-- The frame rule: the rest of the state is what `put` leaves alone. -/
@[simp] theorem wp_zoom {get : σ → τ} {put : τ → σ → σ} {m : Program ε τ α} :
    wp (zoom get put m) post fault =
      fun s => wp m (fun a t => post a (put t s)) fault (get s) := by
  funext s
  unfold wp zoom
  cases m (get s) <;> rfl

/-! ## Programs that do not see part of the state

`f` changes the state where `m` does not look: it appends to a buffer of which
`m` uses a prefix, say. -/

/-- Whenever `m` returns, it returns the same from `f s`, and `f` is carried along. -/
def Commutes (f : σ → σ) (m : Program ε σ α) : Prop :=
  ∀ s a s', m s = .ok (a, s') → m (f s) = .ok (a, f s')

section Commutes

variable {f : σ → σ}

theorem Commutes.pure (a : α) : Commutes f (Pure.pure a : Program ε σ α) := by
  intro s b s' h
  cases h
  rfl

theorem Commutes.bind {m : Program ε σ α} {k : α → Program ε σ β} (hm : Commutes f m)
    (hk : ∀ a, Commutes f (k a)) : Commutes f (m >>= k) := by
  intro s b s' h
  simp only [Bind.bind, StateT.bind, Except.bind] at h ⊢
  cases hrun : m s with
  | error e => rw [hrun] at h; cases h
  | ok out =>
      rw [hrun] at h
      rw [hm s out.1 out.2 hrun]
      exact hk _ _ _ _ h

theorem Commutes.ite {c : Prop} [Decidable c] {m n : Program ε σ α} (hm : Commutes f m)
    (hn : Commutes f n) : Commutes f (if c then m else n) := by
  split
  · exact hm
  · exact hn

theorem Commutes.zoom (get : σ → τ) (put : τ → σ → σ) (hget : ∀ s, get (f s) = get s)
    (hput : ∀ t s, put t (f s) = f (put t s)) (m : Program ε τ α) :
    Commutes f (StateProgram.zoom get put m) := by
  intro s a s' h
  unfold StateProgram.zoom at h ⊢
  rw [hget]
  split at h
  · cases h
    rw [hput]
  · cases h

end Commutes

/-! ## Assertions that a program keeps -/

/-- Whenever `m` returns from a state in `I`, it returns into a state in `I`. -/
def Keeps (I : σ → Prop) (m : Program ε σ α) : Prop :=
  ∀ s, I s → wp m (fun _ t => I t) (fun _ => True) s

section Keeps

variable {I : σ → Prop}

theorem Keeps.pure (a : α) : Keeps I (Pure.pure a : Program ε σ α) := fun _ hs => hs

theorem Keeps.throw (e : ε) : Keeps I (MonadExcept.throw e : Program ε σ α) :=
  fun _ _ => trivial

theorem Keeps.bind {m : Program ε σ α} {k : α → Program ε σ β} (hm : Keeps I m)
    (hk : ∀ a, Keeps I (k a)) : Keeps I (m >>= k) := by
  intro s hs
  rw [wp_bind]
  exact wp.imp (hm s hs) fun a t ht => hk a t ht

theorem Keeps.ite {c : Prop} [Decidable c] {m n : Program ε σ α} (hm : c → Keeps I m)
    (hn : ¬c → Keeps I n) : Keeps I (if c then m else n) := by
  split
  · next h => exact hm h
  · next h => exact hn h

end Keeps

/-! ## Invariants of transition systems -/

/-- An assertion that every transition keeps holds along every run. -/
theorem invariant_of_step {R : σ → σ → Prop} {I : σ → Prop}
    (hstep : ∀ s t, R s t → I s → I t) (hrun : Relation.ReflTransGen R s s') (h : I s) : I s' := by
  induction hrun with
  | refl => exact h
  | tail _ hlast ih => exact hstep _ _ hlast ih

end StateProgram
