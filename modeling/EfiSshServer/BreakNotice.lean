import EfiSshServer.ShimScenario

/-!
# The Ctrl-C for a command whose client is gone

`FireBreak` tells the registered functions of a Ctrl-C when the client vanishes, so that
a running command stops.  Only `PumpInput` calls it, on the -1 of its own `SshRead`.
When it is the poll of `OutputString` or the write of `Flush` that fails first,
`Disconnected` is already set at the next `PumpInput`, which then never reads, and the
functions are never told.

The notifications since the loss are read off the log: all of them if `SshRead` saw the
loss first, and none otherwise.
-/

namespace EfiSshServer

open StateProgram RingBuffer

variable {σ : Type} {ssh : Ssh σ} {fw : Firmware σ} {s t : Shim σ}

/-! ## Notifications of a break -/

def isBreak (kd : KeyData) : Bool :=
  kd = breakKey 3 || kd = breakKey (byteOf 'c').toUInt16

/-- The notifications of a Ctrl-C in a log, oldest first. -/
def breakNotices : List (ShimEvent σ) → List (ℕ × KeyData)
  | [] => []
  | .notified fn kd :: log => breakNotices log ++ if isBreak kd then [(fn, kd)] else []
  | _ :: log => breakNotices log

/-- The calls `FireBreak` makes when these functions are registered. -/
def breakCalls (notify : NotifyTable) : List (ℕ × KeyData) :=
  (matching notify (breakKey 3)).map (·, breakKey 3) ++
    (matching notify (breakKey (byteOf 'c').toUInt16)).map (·, breakKey (byteOf 'c').toUInt16)

theorem breakNotices_append (es log : List (ShimEvent σ)) :
    breakNotices (es ++ log) = breakNotices log ++ breakNotices es := by
  induction es with
  | nil => exact (List.append_nil _).symm
  | cons e es ih =>
      cases e
      case notified fn kd => simp only [List.cons_append, breakNotices, ih, List.append_assoc]
      all_goals exact ih

theorem breakNotices_fired (fns : List ℕ) (kd : KeyData) :
    breakNotices ((fns.map (.notified · kd)).reverse : List (ShimEvent σ)) =
      if isBreak kd then fns.map (·, kd) else [] := by
  induction fns with
  | nil => cases isBreak kd <;> rfl
  | cons fn fns ih =>
      rw [List.map_cons, List.reverse_cons, breakNotices_append, ih]
      cases hbreak : isBreak kd <;> simp [breakNotices, hbreak]

theorem breakNotices_fireNotify (kd : KeyData) (s : Shim σ) :
    breakNotices (fireNotify kd s).log = breakNotices s.log ++
      if isBreak kd then (matching s.keyboard.notify kd).map (·, kd) else [] := by
  rw [fireNotify, breakNotices_append, breakNotices_fired]

theorem breakNotices_fireBreak (s : Shim σ) :
    breakNotices (fireBreak s).log = breakNotices s.log ++ breakCalls s.keyboard.notify := by
  rw [fireBreak, breakNotices_fireNotify, breakNotices_fireNotify, breakCalls, List.append_assoc]
  rfl

/-! ## The keys of `InjectExit` are no break -/

theorem breakNotices_pushKey {k : InputKey} (hplain : isControl k = false)
    (hbreak : isBreak (keyData k) = false) (s : Shim σ) :
    breakNotices (pushKey k s).log = breakNotices s.log := by
  have hfired : breakNotices (fireNotify (keyData k) s).log = breakNotices s.log := by
    simp [breakNotices_fireNotify, hbreak]
  simp only [pushKey, hplain, Bool.false_eq_true, if_false, pushKeyData]
  split
  · exact hfired
  · exact hfired

theorem breakNotices_pushKeys {ks : List InputKey}
    (hplain : ∀ k ∈ ks, isControl k = false ∧ isBreak (keyData k) = false) (s : Shim σ) :
    breakNotices (pushKeys ks s).log = breakNotices s.log := by
  induction ks generalizing s with
  | nil => rfl
  | cons k ks ih =>
      obtain ⟨hk, hks⟩ := List.forall_mem_cons.mp hplain
      exact (ih hks (pushKey k s)).trans (breakNotices_pushKey hk.1 hk.2 s)

theorem breakNotices_injectExit (s : Shim σ) :
    breakNotices (injectExit s).log = breakNotices s.log := by
  unfold injectExit
  split
  · rfl
  · exact breakNotices_pushKeys (by decide) _

/-! ## Losses in the log -/

/-- A loss in a longer log, when the new events are none. -/
theorem gone_split {es log later earlier : List (ShimEvent σ)} {e : ShimEvent σ}
    (hes : ∀ e ∈ es, e.isGone = false) (he : e.isGone = true)
    (h : es ++ log = later ++ e :: earlier) :
    ∃ mid, later = es ++ mid ∧ log = mid ++ e :: earlier := by
  rcases List.append_eq_append_iff.mp h with ⟨mid, hlater, hlog⟩ | ⟨mid, hes', hlog⟩
  · exact ⟨mid, hlater, hlog⟩
  · cases mid with
    | nil => exact ⟨[], by simpa using hes'.symm, by simpa using hlog.symm⟩
    | cons e' mid =>
        obtain ⟨rfl, -⟩ := List.cons_eq_cons.mp hlog
        have hnew := hes e (by rw [hes']; simp)
        rw [he] at hnew
        cases hnew

/-- What the functions have been told of a loss. -/
structure Told (s : Shim σ) : Prop where
  conn : s.disconnected = false → ∀ e ∈ s.log, e.isGone = false
  since : ∀ later source before after notify earlier,
    s.log = later ++ .gone source before after notify :: earlier →
      breakNotices later = if source = .read then breakCalls notify else []

/-- Steps that neither lose the client nor tell of a break. -/
theorem Told.quiet (es : List (ShimEvent σ)) (h : Told s) (hlog : t.log = es ++ s.log)
    (hes : ∀ e ∈ es, e.isGone = false) (hquiet : breakNotices es = [])
    (hconn : t.disconnected = false → s.disconnected = false) : Told t := by
  refine ⟨fun ht e he => ?_, fun later source before after notify earlier hsplit => ?_⟩
  · rw [hlog] at he
    exact (List.mem_append.mp he).elim (hes e) (h.conn (hconn ht) e)
  · rw [hlog] at hsplit
    obtain ⟨mid, rfl, hmid⟩ := gone_split hes rfl hsplit
    rw [breakNotices_append, hquiet, List.append_nil]
    exact h.since mid source before after notify earlier hmid

/-- The same while the client is there, whatever is told of the keys it types. -/
theorem Told.typed (es : List (ShimEvent σ)) (h : Told s) (hlog : t.log = es ++ s.log)
    (hes : ∀ e ∈ es, e.isGone = false) (hconn : s.disconnected = false) : Told t := by
  have hall : ∀ e ∈ t.log, e.isGone = false := by
    rw [hlog]
    exact fun e he => (List.mem_append.mp he).elim (hes e) (h.conn hconn e)
  refine ⟨fun _ => hall, fun later source before after notify earlier hsplit => ?_⟩
  have hgone := hall (.gone source before after notify) (by rw [hsplit]; simp)
  cases hgone

/-- The step that loses the client. -/
theorem Told.lost (es : List (ShimEvent σ)) {old : List (ShimEvent σ)} {source : LossSource}
    {before after : σ} {notify : NotifyTable}
    (hlog : t.log = es ++ .gone source before after notify :: old)
    (hgone : t.disconnected = true) (hes : ∀ e ∈ es, e.isGone = false)
    (hold : ∀ e ∈ old, e.isGone = false)
    (htold : breakNotices es = if source = .read then breakCalls notify else []) : Told t := by
  refine ⟨fun hconn => absurd (hgone.symm.trans hconn) (by decide), ?_⟩
  intro later source' before' after' notify' earlier hsplit
  rw [hlog] at hsplit
  obtain ⟨mid, rfl, hmid⟩ := gone_split hes rfl hsplit
  cases mid with
  | nil =>
      cases hmid
      rwa [List.append_nil]
  | cons e mid =>
      obtain ⟨-, hmid⟩ := List.cons_eq_cons.mp hmid
      have hbefore := hold (.gone source' before' after' notify') (by rw [hmid]; simp)
      cases hbefore

theorem Told.step (hstep : ShimStep ssh fw s t) (h : Told s) : Told t := by
  have htyping : ∀ {es : List (ShimEvent σ)}, (∀ e ∈ es, e.isTyping = true) →
      ∀ e ∈ es, e.isGone = false :=
    fun hes e he => ShimEvent.not_gone_of_isTyping (hes e he)
  cases hstep with
  | pulled bytes host hconn hread =>
      obtain ⟨es, hlog, hes⟩ := (feedAll_typed fw bytes
        { s with host := host, log := .pulled bytes s.keyboard :: s.log }).log
      -- the loss is still ahead, so that nobody is owed a notice
      refine h.typed (es ++ [.pulled bytes s.keyboard]) ?_ (fun e he => ?_) hconn
      · rw [hlog, List.append_assoc, List.singleton_append]
      · rcases List.mem_append.mp he with hnew | hpulled
        · exact htyping hes e hnew
        · rw [List.mem_singleton.mp hpulled]
          rfl
  | readLost host hconn hread =>
      have htyped := (fireBreak_typed (EfiSshServer.lost .read host s)).trans (injectExit_typed _)
      obtain ⟨es, hlog, hes⟩ := htyped.log
      refine Told.lost es hlog htyped.disconnected (htyping hes) (h.conn hconn) ?_
      -- the path that calls `FireBreak`: the notices are there when the call returns
      have htold : breakNotices (injectExit (fireBreak (EfiSshServer.lost .read host s))).log =
          breakNotices s.log ++ breakCalls s.keyboard.notify := by
        rw [breakNotices_injectExit, breakNotices_fireBreak]
        rfl
      rw [hlog, breakNotices_append] at htold
      exact List.append_cancel_left htold
  | injected hgone =>
      obtain ⟨es, hlog, hes⟩ := (injectExit_typed s).log
      refine h.quiet es hlog (htyping hes) ?_ fun hconn => (injectExit_typed s).disconnected ▸ hconn
      have htold := breakNotices_injectExit s
      rw [hlog, breakNotices_append] at htold
      exact List.append_right_eq_self.mp htold
  | checked hconn =>
      obtain ⟨es, hlog, hes⟩ := (checkEsc_typed fw s).log
      exact h.typed es hlog (htyping hes) hconn
  | polled host hconn => exact h.quiet [] rfl (by simp) rfl id
  | wrote rounds bytes host hconn =>
      exact h.quiet [.wrote bytes true] rfl (by simp [ShimEvent.isGone]) rfl id
  | pollLost host hconn hpoll =>
      exact Told.lost [] rfl rfl (by simp) (h.conn hconn) rfl
  | writeLost rounds bytes host hconn hwrite =>
      refine Told.lost [] rfl rfl (by simp) (fun e he => ?_) rfl
      rcases List.mem_cons.mp he with rfl | hold
      · rfl
      · exact h.conn hconn e hold
  | popped hkey => exact h.quiet [_] rfl (by simp; rfl) rfl id
  | reset keyboard => exact h.quiet [.inputReset] rfl (by simp; rfl) rfl id
  | registered i n => exact h.quiet [] rfl (by simp) rfl id
  | noted e hnote =>
      have hgone : e.isGone = false := by cases e <;> first | rfl | cases hnote
      refine h.quiet [e] rfl (by simpa using hgone) ?_ id
      cases e <;> first | rfl | cases hnote

/-! ## Exactly once -/

/-- By the end of the next `PumpInput` after a loss, and from then on, the functions that
were registered at the loss have been told of it exactly once. -/
def ToldOnce (log : List (ShimEvent σ)) : Prop :=
  ∀ later source before after notify earlier,
    log = later ++ .gone source before after notify :: earlier → .pumped ∈ later →
      breakNotices later = breakCalls notify

theorem ShimReachable.told {host : σ} {c : Console σ} (h : ShimReachable ssh fw host c) :
    Told c.toShim := by
  refine h.invariant (fun _ _ => Told.step) ⟨fun _ => nofun, ?_⟩
  intro later source before after notify earlier hsplit
  cases later <;> cases hsplit

/-- The functions are told exactly once if and only if every loss is first seen by the
`SshRead` of `PumpInput`, or nobody is registered for a Ctrl-C. -/
theorem told_once_iff {host : σ} {c : Console σ} (h : ShimReachable ssh fw host c) :
    ToldOnce c.log ↔ ∀ later source before after notify earlier,
      c.log = later ++ .gone source before after notify :: earlier → .pumped ∈ later →
        source = .read ∨ breakCalls notify = [] := by
  have hsince := h.told.since
  constructor
  · intro hold later source before after notify earlier hsplit hpumped
    have htold := hsince later source before after notify earlier hsplit
    rw [hold later source before after notify earlier hsplit hpumped] at htold
    by_cases hread : source = .read
    · exact .inl hread
    · rw [if_neg hread] at htold
      exact .inr htold
  · intro hcond later source before after notify earlier hsplit hpumped
    rw [hsince later source before after notify earlier hsplit]
    rcases hcond later source before after notify earlier hsplit hpumped with hread | hnobody
    · rw [if_pos hread]
    · rw [hnobody, ite_self]

/-- No loss but one that `SshRead` reports. -/
def ShimEvent.seenByRead : ShimEvent σ → Bool
  | .gone source _ _ _ => source = .read
  | _ => true

/-- A Shell that waits for a key registers for a Ctrl-C, and the transport is lost: the read
sees it, and the function is told once. -/
theorem told_once_reading : ∃ (host : Server) (c : Console Server),
    ShimReachable (serverSsh (plainEnv fun _ _ => true)) quietFirmware host c ∧
    c.disconnected = true ∧ breakNotices c.log = [(1, breakKey 3)] ∧ ToldOnce c.log := by
  obtain ⟨host, c, -, -, hreach, hgone, hnotices, hsources⟩ :=
    exists_shim (E := plainEnv fun _ _ => true)
      (P := fun c => c.disconnected = true ∧ breakNotices c.log = [(1, breakKey 3)] ∧
        c.log.all ShimEvent.seenByRead = true)
      [.registerNotify (some (breakKey 3)) (some 1) true, .waitKey]
      [.data (clientShell "root" "secret"), .data [], .lost] (by decide +kernel)
  refine ⟨host, c, hreach, hgone, hnotices, (told_once_iff hreach).mpr ?_⟩
  intro later source before after notify earlier hsplit _
  have hgone : .gone source before after notify ∈ c.log := by
    rw [hsplit]
    exact List.mem_append_right _ List.mem_cons_self
  have hsource := List.all_eq_true.mp hsources _ hgone
  exact .inl (of_decide_eq_true hsource)

/-- The newest loss of a log that has one. -/
theorem exists_gone {log : List (ShimEvent σ)} (h : log.any ShimEvent.isGone = true) :
    ∃ source before after notify earlier,
      log = log.takeWhile (!·.isGone) ++ .gone source before after notify :: earlier := by
  induction log with
  | nil => cases h
  | cons e log ih =>
      cases e
      case gone source before after notify => exact ⟨source, before, after, notify, log, rfl⟩
      all_goals
        obtain ⟨source, before, after, notify, earlier, hlog⟩ := ih h
        exact ⟨source, before, after, notify, earlier, congrArg (List.cons _) hlog⟩

/-- A loss that has somebody to be told of it. -/
def ShimEvent.callsBreak : ShimEvent σ → Bool
  | .gone _ _ _ notify => breakCalls notify ≠ []
  | _ => true

/-- A Shell that prints when the transport is lost sees it in the poll of its 16th string.
The pump after it does not tell the function that is registered for a Ctrl-C. -/
theorem not_told_printing : ∃ (host : Server) (c : Console Server),
    Reachable (plainEnv fun _ _ => true) host ∧
    ShimReachable (serverSsh (plainEnv fun _ _ => true)) quietFirmware host c ∧
    ¬ ToldOnce c.log := by
  obtain ⟨host, c, hhost, -, hreach, hgone, hpumped, hquiet, hnotify⟩ :=
    exists_shim (E := plainEnv fun _ _ => true)
      (P := fun c => c.log.any ShimEvent.isGone = true ∧
        (c.log.takeWhile (!·.isGone)).any ShimEvent.isPumped = true ∧
        breakNotices (c.log.takeWhile (!·.isGone)) = [] ∧
        c.log.all ShimEvent.callsBreak = true)
      ([.registerNotify (some (breakKey 3)) (some 1) true] ++
        List.replicate 16 (.outputString [97]) ++ [.waitKey])
      [.data (clientShell "root" "secret"), .data [], .lost] (by decide +kernel)
  refine ⟨host, c, hhost, hreach, fun htold => ?_⟩
  obtain ⟨source, before, after, notify, earlier, hlog⟩ := exists_gone hgone
  have hpump : .pumped ∈ c.log.takeWhile (!·.isGone) := by
    obtain ⟨e, he, hpump⟩ := List.any_eq_true.mp hpumped
    cases e <;> first | exact he | cases hpump
  have hcalls := htold _ source before after notify earlier hlog hpump
  rw [hquiet] at hcalls
  have hmem : .gone source before after notify ∈ c.log := by
    rw [hlog]
    simp
  exact of_decide_eq_true (List.all_eq_true.mp hnotify _ hmem) hcalls.symm

end EfiSshServer
