import EfiSshServer.Typing

/-!
# The way back to the local keyboard

Once the client is gone, the shim types `exit` for it whenever the Shell has read all
keys, but not more than `SHIM_EXIT_INJECT_MAX` times.  `pendingKeys` are the keys that
this amounts to.  Neither `PumpInput` nor a notification changes them
(`injectExit_pending`), a read takes the first of them, and behind the last one it asks
the local keyboard (`readCommon_answers`).
-/

namespace EfiSshServer

open StateProgram RingBuffer ShimM

variable {σ : Type} {ssh : Ssh σ} {fw : Firmware σ} {rounds : ℕ} {s t u : Shim σ}

/-! ## How often `exit` is typed -/

theorem pushKeyData_exitInjects (kd : KeyData) (s : Shim σ) :
    (pushKeyData kd s).keyboard.exitInjects = s.keyboard.exitInjects := by
  simp only [pushKeyData]
  split
  · rfl
  · rfl

theorem pushKey_exitInjects (k : InputKey) (s : Shim σ) :
    (pushKey k s).keyboard.exitInjects = s.keyboard.exitInjects := by
  unfold pushKey
  split
  · rw [pushKeyData_exitInjects]
    rfl
  · exact pushKeyData_exitInjects _ s

theorem pushKeys_exitInjects (ks : List InputKey) (s : Shim σ) :
    (pushKeys ks s).keyboard.exitInjects = s.keyboard.exitInjects := by
  induction ks generalizing s with
  | nil => rfl
  | cons k ks ih => exact (ih _).trans (pushKey_exitInjects k s)

theorem feed_exitInjects (b : UInt8) (s : Shim σ) :
    (feed fw b s).keyboard.exitInjects = s.keyboard.exitInjects := by
  simp only [feed]
  split
  · simp only [setEscTick]
    exact pushKeys_exitInjects _ _
  · exact pushKeys_exitInjects _ _

variable (fw) in
theorem feedAll_exitInjects (bytes : Bytes) (s : Shim σ) :
    (feedAll fw bytes s).keyboard.exitInjects = s.keyboard.exitInjects := by
  induction bytes generalizing s with
  | nil => rfl
  | cons b bs ih => exact (ih _).trans (feed_exitInjects b s)

variable (fw) in
theorem checkEsc_exitInjects (s : Shim σ) :
    (checkEsc fw s).keyboard.exitInjects = s.keyboard.exitInjects := by
  simp only [checkEsc]
  split
  · rfl
  split
  · rw [flushEsc, feedAll_exitInjects, pushKey_exitInjects]
  · rfl

theorem injectExit_exitInjects_le (h : s.keyboard.exitInjects ≤ shimExitInjectMax) :
    (injectExit s).keyboard.exitInjects ≤ shimExitInjectMax := by
  unfold injectExit
  split
  · exact h
  · next hroom =>
    rw [pushKeys_exitInjects]
    exact Nat.lt_of_not_le fun hfull => hroom (.inr hfull)

theorem ShimStep.exitInjects_le (hstep : ShimStep ssh fw s t)
    (h : s.keyboard.exitInjects ≤ shimExitInjectMax) :
    t.keyboard.exitInjects ≤ shimExitInjectMax := by
  cases hstep with
  | pulled bytes host =>
    rw [feedAll_exitInjects]
    exact h
  | readLost host =>
    apply injectExit_exitInjects_le
    exact h
  | injected => exact injectExit_exitInjects_le h
  | checked =>
    rw [checkEsc_exitInjects]
    exact h
  | reset keyboard _ hinjects => exact hinjects.trans_le h
  | polled | pollLost | wrote | writeLost | popped | registered | noted => exact h

theorem ShimReachable.exitInjects_le {host : σ} {c : Console σ}
    (h : ShimReachable ssh fw host c) : c.keyboard.exitInjects ≤ shimExitInjectMax :=
  h.invariant (I := fun s => s.keyboard.exitInjects ≤ shimExitInjectMax)
    (fun _ _ => ShimStep.exitInjects_le) (Nat.zero_le _)

/-! ## The keys to come -/

/-- The keys that reads return before they ask the local keyboard. -/
def pendingKeys (s : Shim σ) : List KeyData :=
  s.keyboard.keys.toList ++
    (List.replicate (shimExitInjectMax - s.keyboard.exitInjects) (exitKeys.map keyData)).flatten

/-- `exit` and a carriage return fit into an empty ring. -/
theorem pushAll_exitKeys {r : Ring KeyData shimKeyRing} (h : r.isEmpty = true) :
    (r.pushAll (exitKeys.map keyData)).toList = exitKeys.map keyData := by
  have hcount : r.count + (exitKeys.map keyData).length < shimKeyRing := by
    rw [r.isEmpty_iff.mp h]
    decide
  rw [Ring.toList_pushAll_of_fits _ _ hcount, r.isEmpty_iff_toList.mp h, List.nil_append]

/-- Typing `exit` does not change what is to come. -/
theorem injectExit_pending (s : Shim σ) : pendingKeys (injectExit s) = pendingKeys s := by
  unfold injectExit
  split
  · rfl
  · next hroom =>
    rw [not_or, Bool.not_eq_false, ge_iff_le, Nat.not_le] at hroom
    obtain ⟨hempty, hlt⟩ := hroom
    obtain ⟨left, hleft⟩ := Nat.exists_eq_add_one_of_ne_zero (Nat.sub_ne_zero_of_lt hlt)
    have hnext : shimExitInjectMax - (s.keyboard.exitInjects + 1) = left := by omega
    calc pendingKeys (pushKeys exitKeys
          { s with keyboard := { s.keyboard with exitInjects := s.keyboard.exitInjects + 1 } })
        = exitKeys.map keyData ++
            (List.replicate left (exitKeys.map keyData)).flatten := by
          rw [pendingKeys, pushKeys_keys, pushKeys_exitInjects, hnext, pushAll_exitKeys hempty]
      _ = (List.replicate (left + 1) (exitKeys.map keyData)).flatten := by
          rw [List.replicate_succ, List.flatten_cons]
      _ = pendingKeys s := by
          rw [pendingKeys, hleft, s.keyboard.keys.isEmpty_iff_toList.mp hempty, List.nil_append]

/-- The ring stays empty only if `exit` was typed often enough. -/
theorem pending_of_empty (h : keysEmpty (injectExit s) = true) : pendingKeys s = [] := by
  rw [← injectExit_pending, pendingKeys, Ring.isEmpty_iff_toList _ |>.mp h, List.nil_append]
  unfold injectExit at h ⊢
  split at h
  · next hstop =>
    rcases hstop with hkeys | hmax
    · rw [hkeys] at h
      cases h
    · rw [if_pos (.inr hmax), Nat.sub_eq_zero_of_le hmax]
      rfl
  · next hroom =>
    rw [not_or, Bool.not_eq_false] at hroom
    have hkeys := Ring.isEmpty_iff_toList _ |>.mp h
    rw [pushKeys_keys, pushAll_exitKeys hroom.1] at hkeys
    cases hkeys

/-! ## One call -/

/-- What `ReadCommon` returns of the local keyboard, asked after `log`. -/
def localAnswer (fw : Firmware σ) (log : List (ShimEvent σ)) : EfiStatus × Option KeyData :=
  ((fw.localKey log).1, some ⟨(fw.localKey log).2, 0, 0⟩)

/-- The answers are the keys `taken` and then those of the local keyboard, which is asked
after each of the logs in `asked`, and not before the pending keys are used up. -/
structure Drained (fw : Firmware σ) (s t : Shim σ) (taken : List KeyData)
    (asked : List (List (ShimEvent σ))) : Prop where
  disconnected : t.disconnected = true
  pending : pendingKeys s = taken ++ pendingKeys t
  empty : asked ≠ [] → pendingKeys t = []
  log : s.log <:+ t.log
  asks : ∀ log ∈ asked, .askedLocal :: log <:+ t.log

/-- The answers in this order. -/
def answersOf (fw : Firmware σ) (taken : List KeyData) (asked : List (List (ShimEvent σ))) :
    List (EfiStatus × Option KeyData) :=
  (taken.map fun kd => (efiSuccess, some kd)) ++ asked.map (localAnswer fw)

theorem Drained.trans {taken taken' : List KeyData} {asked asked' : List (List (ShimEvent σ))}
    (h : Drained fw s t taken asked) (h' : Drained fw t u taken' asked') :
    Drained fw s u (taken ++ taken') (asked ++ asked') ∧
      answersOf fw taken asked ++ answersOf fw taken' asked' =
        answersOf fw (taken ++ taken') (asked ++ asked') := by
  have hsplit : asked = [] ∨ taken' = [] ∧ pendingKeys u = [] := by
    by_cases hasked : asked = []
    · exact .inl hasked
    · have hnone := h'.pending
      rw [h.empty hasked] at hnone
      exact .inr (List.append_eq_nil_iff.mp hnone.symm)
  constructor
  · refine ⟨h'.disconnected, ?_, ?_, h.log.trans h'.log, ?_⟩
    · rw [h.pending, h'.pending, List.append_assoc]
    · intro hne
      rcases hsplit with hasked | ⟨-, hnone⟩
      · rw [hasked, List.nil_append] at hne
        exact h'.empty hne
      · exact hnone
    · intro log hlog
      rcases List.mem_append.mp hlog with hlog | hlog
      · exact (h.asks log hlog).trans h'.log
      · exact h'.asks log hlog
  · rcases hsplit with hasked | ⟨htaken, -⟩
    · simp [answersOf, hasked]
    · simp [answersOf, htaken]

/-- `PumpInput` without a client. -/
theorem wp_pumpInput {post : Unit → Shim σ → Prop} {fault : Stop → Prop}
    (hgone : s.disconnected = true)
    (h : post () { injectExit s with log := .pumped :: (injectExit s).log }) :
    wp (pumpInput ssh fw rounds) post fault s := by
  rw [pumpInput, wp_bind]
  simp only [wp_get]
  apply wp.ite
  · intro _
    exact h
  · intro hconn
    exact absurd hgone hconn

theorem injectExit_drained (hgone : s.disconnected = true) (es : List (ShimEvent σ)) :
    Drained fw s { injectExit s with log := es ++ .pumped :: (injectExit s).log } [] [] := by
  obtain ⟨typed, hlog, -⟩ := (injectExit_typed s).log
  refine ⟨(injectExit_typed s).disconnected.trans hgone, (injectExit_pending s).symm,
    fun hne => absurd rfl hne, ?_, by simp⟩
  rw [hlog]
  exact ⟨es ++ .pumped :: typed, by simp⟩

/-- A read takes a key, or asks the local keyboard. -/
theorem readCommon_answers (hgone : s.disconnected = true) (hlocal : fw.hasConIn = true) :
    wp (readCommon ssh fw rounds) (fun answer t => ∃ taken asked,
      Drained fw s t taken asked ∧ [answer] = answersOf fw taken asked ∧
        taken.length + asked.length = 1) (fun _ => False) s := by
  rw [readCommon, wp_bind]
  apply wp_pumpInput hgone
  have hgone' := (injectExit_typed s).disconnected.trans hgone
  have hdrained : Drained fw s _ [] [] := injectExit_drained hgone []
  rw [wp_bind, popKey, wp_bind]
  simp only [wp_get]
  refine wp.ite (fun hempty => ?_) fun hkeys => ?_
  · have hnone : pendingKeys s = [] := pending_of_empty hempty
    have hnone' : pendingKeys (injectExit s) = [] := (injectExit_pending s).trans hnone
    simp only [wp_pure, wp_bind, wp_get]
    refine wp.ite (fun _ => ?_) fun hnot => absurd ⟨hgone', hlocal⟩ hnot
    refine ⟨[], [.pumped :: (injectExit s).log], ?_, rfl, rfl⟩
    refine ⟨hgone', hnone.trans hnone'.symm, fun _ => hnone', ?_, ?_⟩
    · exact hdrained.log.trans (List.suffix_cons _ _)
    · intro log hlog
      obtain rfl := List.mem_singleton.mp hlog
      exact List.suffix_refl _
  · have hkeys : (injectExit s).keyboard.keys.isEmpty = false := Bool.not_eq_true _ ▸ hkeys
    refine ⟨[(injectExit s).keyboard.keys.cells (injectExit s).keyboard.keys.tail], [], ?_, rfl,
      rfl⟩
    refine ⟨hgone', ?_, fun hne => absurd rfl hne, ?_, by simp⟩
    · rw [← injectExit_pending, pendingKeys, Ring.toList_pop _ hkeys]
      rfl
    · exact hdrained.log.trans (List.suffix_cons _ _)

/-- A notification leaves the keys alone. -/
theorem shimWaitKeyNotify_drained (hgone : s.disconnected = true) :
    wp (shimWaitKeyNotify ssh fw rounds) (fun _ t => Drained fw s t [] []) (fun _ => False) s := by
  rw [shimWaitKeyNotify, wp_bind]
  apply wp_pumpInput hgone
  rw [wp_bind]
  simp only [wp_get]
  refine wp.ite (fun _ => injectExit_drained hgone [.signalled]) fun _ => ?_
  refine wp.ite (fun _ => ?_) fun _ => injectExit_drained hgone []
  simp only [wp_bind, wp_record]
  refine wp.ite (fun _ => ?_) fun _ => injectExit_drained hgone [.askedLocal]
  exact injectExit_drained hgone [.signalled, .askedLocal]

/-! ## Sequences of calls -/

theorem runKeyCall_answers (call : KeyCall) (hgone : s.disconnected = true)
    (hlocal : fw.hasConIn = true) :
    wp (runKeyCall ssh fw rounds call) (fun answers t => ∃ taken asked,
      Drained fw s t taken asked ∧ answers = answersOf fw taken asked ∧
        taken.length + asked.length = [call].count .read) (fun _ => False) s := by
  cases call with
  | read =>
    rw [runKeyCall, wp_bind]
    exact readCommon_answers hgone hlocal
  | waitKey =>
    rw [runKeyCall, wp_bind]
    exact wp.imp (shimWaitKeyNotify_drained hgone) fun _ t h => ⟨[], [], h, rfl, rfl⟩

theorem runKeyCalls_answers (calls : List KeyCall) (hgone : s.disconnected = true)
    (hlocal : fw.hasConIn = true) :
    wp (runKeyCalls ssh fw rounds calls) (fun answers t => ∃ taken asked,
      Drained fw s t taken asked ∧ answers = answersOf fw taken asked ∧
        taken.length + asked.length = calls.count .read) (fun _ => False) s := by
  induction calls generalizing s with
  | nil =>
    refine ⟨[], [], ⟨hgone, rfl, fun hne => absurd rfl hne, List.suffix_refl _, ?_⟩, rfl, rfl⟩
    intro log hlog
    cases hlog
  | cons call calls ih =>
    rw [runKeyCalls, wp_bind]
    refine wp.imp (runKeyCall_answers call hgone hlocal) fun answers t hcall => ?_
    obtain ⟨taken, asked, hdrained, hanswers, hcount⟩ := hcall
    rw [wp_bind]
    refine wp.imp (ih hdrained.disconnected) fun more u hcalls => ?_
    obtain ⟨taken', asked', hdrained', hanswers', hcount'⟩ := hcalls
    obtain ⟨hall, hordered⟩ := hdrained.trans hdrained'
    refine ⟨taken ++ taken', asked ++ asked', hall, ?_, ?_⟩
    · rw [hanswers, hanswers']
      exact hordered
    · rw [← List.singleton_append, List.count_append, ← hcount, ← hcount', List.length_append,
        List.length_append]
      omega

/-- After a disconnect, reads return the queued keys, then `exit` as often as it is left,
and then what the local keyboard says. -/
theorem local_keyboard_reached {host : σ} {c : Console σ} (h : ShimReachable ssh fw host c) :
    c.keyboard.exitInjects ≤ shimExitInjectMax ∧
      (c.disconnected = true → fw.hasConIn = true → ∀ (rounds : ℕ) (calls : List KeyCall),
        ∃ asked t, runKeyCalls ssh fw rounds calls c.toShim =
            .ok (answersOf fw ((pendingKeys c.toShim).take (calls.count .read)) asked, t) ∧
          asked.length = calls.count .read - (pendingKeys c.toShim).length ∧
          ∀ log ∈ asked, .askedLocal :: log <:+ t.log) := by
  refine ⟨h.exitInjects_le, fun hgone hlocal rounds calls => ?_⟩
  have hreturns : wp (runKeyCalls ssh fw rounds calls) _ _ c.toShim :=
    runKeyCalls_answers calls hgone hlocal
  obtain ⟨answers, t, hrun, taken, asked, hdrained, hanswers, hcount⟩ := hreturns.returns
  have hpending := hdrained.pending
  have htaken : (pendingKeys c.toShim).take (calls.count .read) = taken ∧
      asked.length = calls.count .read - (pendingKeys c.toShim).length := by
    by_cases hasked : asked = []
    · rw [hasked, List.length_nil, Nat.add_zero] at hcount
      rw [hpending, ← hcount, List.take_left, hasked, List.length_append]
      exact ⟨rfl, by simp⟩
    · rw [hdrained.empty hasked, List.append_nil] at hpending
      rw [hpending]
      exact ⟨List.take_of_length_le (by omega), by omega⟩
  refine ⟨asked, t, ?_, htaken.2, hdrained.asks⟩
  rw [htaken.1, ← hanswers]
  exact hrun

/-- A client that is lost: the 201st read behind that is the first of the local keyboard. -/
theorem local_keyboard_reached_lost : ∃ (host : Server) (c : Console Server),
    ShimReachable (serverSsh (plainEnv fun _ _ => true)) quietFirmware host c ∧
      ∃ asked t, runKeyCalls (serverSsh (plainEnv fun _ _ => true)) quietFirmware 0
          (List.replicate 201 .read) c.toShim =
            .ok (answersOf quietFirmware (pendingKeys c.toShim) asked, t) ∧
        asked.length = 1 := by
  obtain ⟨host, c, -, -, hreach, hgone, hlength⟩ := exists_shim (E := plainEnv fun _ _ => true)
    (P := fun c => c.disconnected = true ∧ (pendingKeys c.toShim).length = 200) [.waitKey]
    [.data (clientShell "root" "secret"), .lost] (by decide +kernel)
  obtain ⟨asked, t, hrun, hasked, -⟩ :=
    (local_keyboard_reached hreach).2 hgone rfl 0 (List.replicate 201 .read)
  rw [List.count_replicate_self] at hrun hasked
  rw [hlength] at hasked
  rw [List.take_of_length_le (hlength.trans_le (by decide))] at hrun
  exact ⟨host, c, hreach, asked, t, hrun, hasked⟩

end EfiSshServer
