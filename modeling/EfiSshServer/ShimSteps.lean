import EfiSshServer.Console

/-!
# The steps of the shim

`ShimStep` says what the shim can do to its input side and to the connection, one
call on the connection or one batch of keys at a time.  Every call of the Shell is a
sequence of such steps (`ConsoleRuns.steps`), so an assertion that each step keeps
holds in every state of every run.
-/

namespace EfiSshServer

open StateProgram RingBuffer ShimM

variable {σ : Type} {ssh : Ssh σ} {fw : Firmware σ} {rounds : ℕ}

/-- Nothing is asked of a call that does not return. -/
def anyStop : Stop → Prop := fun _ => True

/-- The events that only note what happened on the output side or outside. -/
def ShimEvent.isNote : ShimEvent σ → Bool
  | .pumped | .flushed _ | .mirrored _ | .askedLocal | .signalled => true
  | _ => false

section Step

variable (ssh fw)

/-- `Disconnected` set by a call that took the connection to `host`. -/
def lost (source : LossSource) (host : σ) (s : Shim σ) : Shim σ :=
  { s with
    host := host
    disconnected := true
    log := .gone source s.host host s.keyboard.notify :: s.log }

inductive ShimStep (s : Shim σ) : Shim σ → Prop
  | pulled (bytes : Bytes) (host : σ) (hconn : s.disconnected = false)
      (hread : ssh.read pumpBuf s.host = .ok (some bytes, host)) :
      ShimStep s (feedAll fw bytes
        { s with host := host, log := .pulled bytes s.keyboard :: s.log })
  | readLost (host : σ) (hconn : s.disconnected = false)
      (hread : ssh.read pumpBuf s.host = .ok (none, host)) :
      ShimStep s (injectExit (fireBreak (lost .read host s)))
  | injected (hgone : s.disconnected = true) : ShimStep s (injectExit s)
  | checked (hconn : s.disconnected = false) : ShimStep s (checkEsc fw s)
  | polled (host : σ) (hconn : s.disconnected = false)
      (hpoll : ssh.poll s.host = .ok (true, host)) : ShimStep s { s with host := host }
  | pollLost (host : σ) (hconn : s.disconnected = false)
      (hpoll : ssh.poll s.host = .ok (false, host)) : ShimStep s (lost .poll host s)
  | wrote (rounds : ℕ) (bytes : Bytes) (host : σ) (hconn : s.disconnected = false)
      (hwrite : ssh.write rounds bytes s.host = .ok (true, host)) :
      ShimStep s { s with host := host, log := .wrote bytes true :: s.log }
  | writeLost (rounds : ℕ) (bytes : Bytes) (host : σ) (hconn : s.disconnected = false)
      (hwrite : ssh.write rounds bytes s.host = .ok (false, host)) :
      ShimStep s { s with
        host := host
        disconnected := true
        log := .gone .write s.host host s.keyboard.notify :: .wrote bytes false :: s.log }
  | popped (hkey : keysEmpty s = false) :
      ShimStep s { s with
        keyboard := { s.keyboard with keys := s.keyboard.keys.pop }
        log := .returned (s.keyboard.keys.cells s.keyboard.keys.tail) :: s.log }
  | reset (keyboard : Keyboard) (hnotify : keyboard.notify = s.keyboard.notify)
      (hinjects : keyboard.exitInjects = s.keyboard.exitInjects) :
      ShimStep s { s with keyboard := keyboard, log := .inputReset :: s.log }
  | registered (i : Fin shimMaxNotify) (n : Notify) : ShimStep s (setNotify i n s)
  | noted (e : ShimEvent σ) (hnote : e.isNote = true) : ShimStep s { s with log := e :: s.log }

def ShimSteps : Shim σ → Shim σ → Prop := Relation.ReflTransGen (ShimStep ssh fw)

end Step

variable {s t u : Shim σ}

theorem ShimStep.steps (h : ShimStep ssh fw s t) : ShimSteps ssh fw s t :=
  Relation.ReflTransGen.single h

theorem ShimSteps.refl (s : Shim σ) : ShimSteps ssh fw s s := Relation.ReflTransGen.refl

theorem ShimSteps.trans (h : ShimSteps ssh fw s t) (h' : ShimSteps ssh fw t u) :
    ShimSteps ssh fw s u :=
  Relation.ReflTransGen.trans h h'

theorem ShimSteps.invariant {I : Shim σ → Prop} (hstep : ∀ s t, ShimStep ssh fw s t → I s → I t)
    (h : ShimSteps ssh fw s t) (hI : I s) : I t :=
  invariant_of_step hstep h hI

/-! ## Rules -/

section Rules

variable {α : Type} {fault : Stop → Prop}

theorem wp_call {post : α → Shim σ → Prop} (m : Program Stop σ α) :
    wp (call m) post fault =
      fun s => wp m (fun a h => post a { s with host := h }) fault s.host := by
  rw [call, wp_zoom]

/-- A call on the connection, by its outcomes. -/
theorem wp_call_of_ok {post : α → Shim σ → Prop} {m : Program Stop σ α}
    (h : ∀ a host, m s.host = .ok (a, host) → post a { s with host := host }) :
    wp (call m) post anyStop s := by
  rw [wp_call]
  exact wp_of_forall h fun _ _ => trivial

theorem wp_onShim {post : α → Console σ → Prop} (m : ShimM σ α) :
    wp (onShim m) post fault =
      fun s => wp m (fun a t => post a { s with toShim := t }) fault s.toShim := by
  rw [onShim, wp_zoom]

@[simp] theorem ShimM.wp_record {post : Unit → Shim σ → Prop} (e : ShimEvent σ) :
    wp (record e) post fault = fun s => post () { s with log := e :: s.log } :=
  rfl

@[simp] theorem wp_lose {post : Unit → Shim σ → Prop} (source : LossSource) (before : σ) :
    wp (lose source before) post fault = fun s => post ()
      { s with
        disconnected := true
        log := .gone source before s.host s.keyboard.notify :: s.log } :=
  rfl

end Rules

/-! ## Batches of keys -/

/-- The events of the decoder and of pushing keys. -/
def ShimEvent.isTyping : ShimEvent σ → Bool
  | .notified .. | .dropped _ | .ticks | .escTimeout => true
  | _ => false

def ShimEvent.isGone : ShimEvent σ → Bool
  | .gone .. => true
  | _ => false

def ShimEvent.isPumped : ShimEvent σ → Bool
  | .pumped => true
  | _ => false

theorem ShimEvent.not_gone_of_isTyping {e : ShimEvent σ} (h : e.isTyping = true) :
    e.isGone = false := by
  cases e <;> first | rfl | cases h

/-- What typing can change: the keyboard, less its table, and the log. -/
structure Typed (s t : Shim σ) : Prop where
  host : t.host = s.host
  disconnected : t.disconnected = s.disconnected
  notify : t.keyboard.notify = s.keyboard.notify
  log : ∃ es, t.log = es ++ s.log ∧ ∀ e ∈ es, e.isTyping = true

theorem Typed.refl (s : Shim σ) : Typed s s := ⟨rfl, rfl, rfl, [], rfl, nofun⟩

theorem Typed.trans (h : Typed s t) (h' : Typed t u) : Typed s u := by
  obtain ⟨es, heq, htyping⟩ := h.log
  obtain ⟨es', heq', htyping'⟩ := h'.log
  refine ⟨h'.host.trans h.host, h'.disconnected.trans h.disconnected, h'.notify.trans h.notify,
    es' ++ es, by rw [heq', heq, List.append_assoc], fun e he => ?_⟩
  exact (List.mem_append.mp he).elim (htyping' e) (htyping e)

/-- One event, and any keyboard with the same table. -/
theorem Typed.event {e : ShimEvent σ} (he : e.isTyping = true) {kb : Keyboard}
    (hnotify : kb.notify = s.keyboard.notify) :
    Typed s { s with keyboard := kb, log := e :: s.log } :=
  ⟨rfl, rfl, hnotify, [e], rfl, by simpa using he⟩

theorem Typed.keyboard {kb : Keyboard} (hnotify : kb.notify = s.keyboard.notify) :
    Typed s { s with keyboard := kb } :=
  ⟨rfl, rfl, hnotify, [], rfl, nofun⟩

theorem fireNotify_typed (kd : KeyData) (s : Shim σ) : Typed s (fireNotify kd s) := by
  refine ⟨rfl, rfl, rfl, _, rfl, fun e he => ?_⟩
  simp only [List.mem_reverse, List.mem_map] at he
  obtain ⟨fn, -, rfl⟩ := he
  rfl

theorem pushKeyData_typed (kd : KeyData) (s : Shim σ) : Typed s (pushKeyData kd s) := by
  refine (fireNotify_typed kd s).trans ?_
  simp only [pushKeyData]
  split
  · exact .event rfl rfl
  · exact .keyboard rfl

theorem pushKey_typed (k : InputKey) (s : Shim σ) : Typed s (pushKey k s) := by
  unfold pushKey
  split
  · exact (fireNotify_typed _ s).trans (pushKeyData_typed _ _)
  · exact pushKeyData_typed _ s

theorem pushKeys_typed (ks : List InputKey) (s : Shim σ) : Typed s (pushKeys ks s) := by
  induction ks generalizing s with
  | nil => exact .refl s
  | cons k ks ih => exact (pushKey_typed k s).trans (ih _)

theorem feed_typed (b : UInt8) (s : Shim σ) : Typed s (feed fw b s) := by
  have hkeys : Typed s (pushKeys (feedByte s.keyboard.decoder b).2
      { s with keyboard := { s.keyboard with decoder := (feedByte s.keyboard.decoder b).1 } }) := by
    refine Typed.trans ?_ (pushKeys_typed _ _)
    exact .keyboard rfl
  simp only [feed]
  split
  · exact hkeys.trans (.event rfl rfl)
  · exact hkeys

variable (fw) in
theorem feedAll_typed (bytes : Bytes) (s : Shim σ) : Typed s (feedAll fw bytes s) := by
  induction bytes generalizing s with
  | nil => exact .refl s
  | cons b bs ih => exact (feed_typed b s).trans (ih _)

theorem flushEsc_typed (s : Shim σ) : Typed s (flushEsc fw s) := by
  refine Typed.trans ?_ (feedAll_typed fw _ _)
  refine Typed.trans ?_ (pushKey_typed _ _)
  exact .event rfl rfl

variable (fw) in
theorem checkEsc_typed (s : Shim σ) : Typed s (checkEsc fw s) := by
  have hticks : Typed s { s with log := .ticks :: s.log } := .event rfl rfl
  simp only [checkEsc]
  split
  · exact .refl s
  split
  · exact hticks.trans (flushEsc_typed _)
  · exact hticks

theorem fireBreak_typed (s : Shim σ) : Typed s (fireBreak s) :=
  (fireNotify_typed _ s).trans (fireNotify_typed _ _)

theorem injectExit_typed (s : Shim σ) : Typed s (injectExit s) := by
  unfold injectExit
  split
  · exact .refl s
  · refine Typed.trans ?_ (pushKeys_typed _ _)
    exact .keyboard rfl

/-! ## The input side -/

theorem pumpRounds_steps (hconn : s.disconnected = false) :
    wp (pumpRounds ssh fw rounds)
      (fun ok t => ShimSteps ssh fw s t ∧ (ok = true → t.disconnected = false)) anyStop s := by
  induction rounds generalizing s with
  | zero => trivial
  | succ rounds ih =>
      simp only [pumpRounds, wp_bind, wp_get]
      refine wp_call_of_ok fun out host hread => ?_
      cases out with
      | none =>
          simp only [wp_bind, wp_lose, wp_modify, wp_pure]
          exact ⟨(ShimStep.readLost host hconn hread).steps, nofun⟩
      | some bytes =>
          have hstep : ShimSteps ssh fw s _ := (ShimStep.pulled bytes host hconn hread).steps
          have hconn' := (feedAll_typed fw bytes
            { s with host := host, log := .pulled bytes s.keyboard :: s.log }).disconnected
          simp only [wp_bind, wp_record, wp_modify]
          refine wp.ite (fun _ => ⟨hstep, fun _ => hconn'.trans hconn⟩) fun _ => ?_
          exact wp.imp (ih (hconn'.trans hconn)) fun _ _ h => ⟨hstep.trans h.1, h.2⟩

theorem pumpInput_steps :
    wp (pumpInput ssh fw rounds) (fun _ t => ShimSteps ssh fw s t) anyStop s := by
  have hpumped : ∀ t : Shim σ, ShimSteps ssh fw s t →
      ShimSteps ssh fw s { t with log := .pumped :: t.log } :=
    fun t h => h.trans (ShimStep.noted .pumped rfl).steps
  simp only [pumpInput, wp_bind, wp_get]
  refine wp.ite (fun hgone => ?_) fun hconn => ?_
  · exact hpumped _ (ShimStep.injected hgone).steps
  · simp only [wp_bind]
    refine wp.imp (pumpRounds_steps (by simpa using hconn)) fun ok t h => ?_
    refine wp.ite (fun hok => ?_) fun _ => hpumped _ h.1
    exact hpumped _ (h.1.trans (ShimStep.checked (h.2 hok)).steps)

variable (fw) in
variable (ssh) in
theorem popKey_steps : wp popKey (fun _ t => ShimSteps ssh fw s t) anyStop s := by
  simp only [popKey, wp_bind, wp_get]
  refine wp.ite (fun _ => .refl _) fun hkey => ?_
  exact (ShimStep.popped (by simpa using hkey)).steps

theorem readCommon_steps :
    wp (readCommon ssh fw rounds) (fun _ t => ShimSteps ssh fw s t) anyStop s := by
  simp only [readCommon, wp_bind]
  refine wp.imp pumpInput_steps fun _ t h => ?_
  refine wp.imp (popKey_steps ssh fw) fun out u h' => ?_
  cases out with
  | some kd => exact h.trans h'
  | none =>
      simp only [wp_bind, wp_get]
      refine wp.ite (fun _ => ?_) fun _ => h.trans h'
      exact (h.trans h').trans (ShimStep.noted .askedLocal rfl).steps

theorem shimReadKey_steps :
    wp (shimReadKey ssh fw rounds) (fun _ t => ShimSteps ssh fw s t) anyStop s := by
  simp only [shimReadKey, wp_bind, wp_pure]
  exact readCommon_steps

theorem shimReadKeyEx_steps (given : Bool) :
    wp (shimReadKeyEx ssh fw rounds given) (fun _ t => ShimSteps ssh fw s t) anyStop s :=
  wp.ite (fun _ => readCommon_steps) fun _ => .refl _

theorem shimInReset_steps : wp shimInReset (fun _ t => ShimSteps ssh fw s t) anyStop s := by
  simp only [shimInReset, wp_bind, wp_modify, wp_pure]
  refine ShimStep.steps ?_
  exact .reset _ rfl rfl

theorem shimRegisterNotify_steps (kd : Option KeyData) (fn : Option ℕ) (wanted : Bool) :
    wp (shimRegisterNotify kd fn wanted) (fun _ t => ShimSteps ssh fw s t) anyStop s := by
  unfold shimRegisterNotify
  split
  · simp only [wp_bind, wp_get]
    split
    · exact (ShimStep.registered _ _).steps
    · exact .refl _
  · exact .refl _

theorem shimUnregisterNotify_steps (handle : Option (Fin shimMaxNotify)) :
    wp (shimUnregisterNotify handle) (fun _ t => ShimSteps ssh fw s t) anyStop s := by
  unfold shimUnregisterNotify
  split
  · simp only [wp_bind, wp_get]
    exact wp.ite (fun _ => (ShimStep.registered _ _).steps) fun _ => .refl _
  · exact .refl _

theorem shimWaitKeyNotify_steps :
    wp (shimWaitKeyNotify ssh fw rounds) (fun _ t => ShimSteps ssh fw s t) anyStop s := by
  simp only [shimWaitKeyNotify, wp_bind]
  refine wp.imp pumpInput_steps fun _ t h => ?_
  simp only [wp_get]
  have hsignal : ∀ u : Shim σ, ShimSteps ssh fw s u →
      ShimSteps ssh fw s { u with log := .signalled :: u.log } :=
    fun u hu => hu.trans (ShimStep.noted .signalled rfl).steps
  refine wp.ite (fun _ => hsignal t h) fun _ => wp.ite (fun _ => ?_) fun _ => h
  have hasked := h.trans (ShimStep.noted .askedLocal rfl).steps
  simp only [wp_bind, wp_record]
  exact wp.ite (fun _ => hsignal _ hasked) fun _ => hasked

/-! ## The output side -/

variable (fw) in
theorem deliver_steps (bytes : Bytes) :
    wp (deliver ssh rounds bytes) (fun _ t => ShimSteps ssh fw s t) anyStop s := by
  simp only [deliver, wp_bind, wp_get]
  refine wp.ite (fun _ => .refl _) fun hconn => ?_
  have hconn : s.disconnected = false := by simpa using hconn
  simp only [wp_bind]
  refine wp_call_of_ok fun ok host hwrite => ?_
  cases ok with
  | true => exact (ShimStep.wrote rounds bytes host hconn hwrite).steps
  | false => exact (ShimStep.writeLost rounds bytes host hconn hwrite).steps

theorem notes_steps (es : List (ShimEvent σ)) (hnotes : ∀ e ∈ es, e.isNote = true) :
    ShimSteps ssh fw s { s with log := es ++ s.log } := by
  induction es with
  | nil => exact .refl s
  | cons e es ih =>
      have hrest := ih fun e' he' => hnotes e' (List.mem_cons_of_mem _ he')
      exact hrest.trans (ShimStep.noted e (hnotes e List.mem_cons_self)).steps

theorem mirror_steps (bytes : Bytes) : ShimSteps ssh fw s (mirror fw bytes s) := by
  unfold mirror
  split
  · refine notes_steps _ fun e he => ?_
    simp only [List.mem_reverse, List.mem_map] at he
    obtain ⟨text, -, rfl⟩ := he
    rfl
  · exact .refl s

section Output

variable {c : Console σ}

/-- What `Flush` does to the rest of the shim. -/
theorem flush_steps :
    wp (flush ssh fw rounds) (fun _ c' => ShimSteps ssh fw c.toShim c'.toShim) anyStop c := by
  simp only [flush, wp_bind, wp_get]
  refine wp.ite (fun _ => .refl _) fun _ => ?_
  simp only [wp_bind, wp_onShim]
  refine wp.imp (deliver_steps fw _) fun _ t h => ?_
  simp only [wp_modify, wp_record]
  exact (h.trans (mirror_steps _)).trans (ShimStep.noted (.flushed _) rfl).steps

theorem emitByte_steps (b : UInt8) :
    wp (emitByte ssh fw rounds b) (fun _ c' => ShimSteps ssh fw c.toShim c'.toShim) anyStop c := by
  simp only [emitByte, wp_bind, wp_get]
  refine wp.ite (fun _ => ?_) fun _ => .refl _
  simp only [wp_bind]
  exact wp.imp flush_steps fun _ _ h => h

theorem emit_steps (bytes : Bytes) :
    wp (emit ssh fw rounds bytes) (fun _ c' => ShimSteps ssh fw c.toShim c'.toShim) anyStop c := by
  induction bytes generalizing c with
  | nil => exact .refl _
  | cons b bs ih =>
      simp only [emit, wp_bind]
      refine wp.imp (emitByte_steps b) fun _ c₁ h => ?_
      exact wp.imp ih fun _ _ h' => h.trans h'

/-- Emitting and flushing, the shape of the output calls. -/
theorem emit_flush_steps (bytes : Bytes) :
    wp (do emit ssh fw rounds bytes; flush ssh fw rounds; return efiSuccess)
      (fun _ c' => ShimSteps ssh fw c.toShim c'.toShim) anyStop c := by
  simp only [wp_bind, wp_pure]
  refine wp.imp (emit_steps bytes) fun _ c₁ h => ?_
  exact wp.imp flush_steps fun _ _ h' => h.trans h'

variable (fw) in
theorem pollSometimes_steps :
    wp (pollSometimes ssh) (fun _ c' => ShimSteps ssh fw c.toShim c'.toShim) anyStop c := by
  simp only [pollSometimes, wp_bind, wp_modify, wp_get]
  refine wp.ite (fun hpoll => ?_) fun _ => .refl _
  simp only [wp_bind, wp_onShim]
  refine wp_call_of_ok fun ok host hrun => ?_
  cases ok with
  | true => exact (ShimStep.polled host hpoll.2 hrun).steps
  | false => exact (ShimStep.pollLost host hpoll.2 hrun).steps

theorem printString_steps (string : List UInt16) :
    wp (printString ssh fw rounds string)
      (fun _ c' => ShimSteps ssh fw c.toShim c'.toShim) anyStop c := by
  induction string generalizing c with
  | nil => exact .refl _
  | cons ch chs ih =>
      simp only [printString, wp_bind, wp_get]
      refine wp.imp (emit_steps _) fun _ c₁ h => ?_
      simp only [setScreen, wp_modify]
      exact wp.imp ih fun _ _ h' => h.trans h'

theorem shimClearScreen_steps :
    wp (shimClearScreen ssh fw rounds)
      (fun _ c' => ShimSteps ssh fw c.toShim c'.toShim) anyStop c := by
  simp only [shimClearScreen, wp_bind, wp_pure]
  refine wp.imp (emit_steps _) fun _ c₁ h => ?_
  simp only [setScreen, wp_modify]
  exact wp.imp flush_steps fun _ _ h' => h.trans h'

theorem shimOutputString_steps (string : List UInt16) :
    wp (shimOutputString ssh fw rounds string)
      (fun _ c' => ShimSteps ssh fw c.toShim c'.toShim) anyStop c := by
  simp only [shimOutputString, wp_bind, wp_pure]
  refine wp.imp (pollSometimes_steps fw) fun _ c₁ h₁ => ?_
  refine wp.imp (printString_steps string) fun _ c₂ h₂ => ?_
  exact wp.imp flush_steps fun _ _ h₃ => (h₁.trans h₂).trans h₃

/-- `ShimInstall` on the rest of the shim. -/
theorem shimInstall_steps :
    wp (shimInstall ssh fw rounds)
      (fun _ c' => ShimSteps ssh fw c.toShim c'.toShim) anyStop c := by
  simp only [shimInstall, refreshSize, setScreen]
  exact emit_flush_steps _

/-- Every call is a sequence of steps. -/
theorem runConsole_steps (call : ConsoleCall) :
    wp (runConsole ssh fw rounds call)
      (fun _ c' => ShimSteps ssh fw c.toShim c'.toShim) anyStop c := by
  cases call <;> simp only [runConsole, wp_bind, wp_pure, wp_onShim]
  case outputString string => exact shimOutputString_steps string
  case testString => exact .refl _
  case queryMode modeNumber => exact wp.ite (fun _ => .refl _) fun _ => .refl _
  case setMode modeNumber => exact wp.ite (fun _ => .refl _) fun _ => shimClearScreen_steps
  case setAttribute value => exact wp.ite (fun _ => .refl _) fun _ => emit_flush_steps _
  case clearScreen => exact shimClearScreen_steps
  case setCursorPosition column row =>
    exact wp.ite (fun _ => .refl _) fun _ => emit_flush_steps _
  case enableCursor visible => exact emit_flush_steps _
  case outReset =>
    simp only [shimOutReset, setScreen, wp_bind, wp_modify]
    refine wp.imp (emit_steps _) fun _ c₁ h₁ => ?_
    refine wp.imp flush_steps fun _ c₂ h₂ => ?_
    exact wp.imp shimClearScreen_steps fun _ _ h₃ => (h₁.trans h₂).trans h₃
  case inReset => exact shimInReset_steps
  case readKey => exact shimReadKey_steps
  case readKeyEx given => exact shimReadKeyEx_steps given
  case waitKey => exact shimWaitKeyNotify_steps
  case registerNotify kd fn wanted => exact shimRegisterNotify_steps kd fn wanted
  case unregisterNotify handle => exact shimUnregisterNotify_steps handle

end Output

/-! ## Runs -/

theorem ConsoleRuns.steps {c c' : Console σ} (h : ConsoleRuns ssh fw c c') :
    ShimSteps ssh fw c.toShim c'.toShim := by
  induction h with
  | none => exact .refl _
  | call _ rounds call hrun ih => exact ih.trans ((runConsole_steps call).ok hrun)

/-- The input side of a zeroed shim. -/
theorem ShimReachable.steps {host : σ} {c : Console σ} (h : ShimReachable ssh fw host c) :
    ShimSteps ssh fw (zeroConsole host).toShim c.toShim := by
  obtain ⟨c₀, ⟨rounds, hinstall⟩, hruns⟩ := h
  exact (shimInstall_steps.ok hinstall).trans hruns.steps

/-- The rule for runs of the shim. -/
theorem ShimReachable.invariant {host : σ} {c : Console σ} {I : Shim σ → Prop}
    (h : ShimReachable ssh fw host c) (hstep : ∀ s t, ShimStep ssh fw s t → I s → I t)
    (hI : I (zeroConsole host).toShim) : I c.toShim :=
  h.steps.invariant hstep hI

/-! ## Assertions about the connection -/

/-- An assertion about the connection that the calls of the shim keep. -/
structure Ssh.Keeps (ssh : Ssh σ) (P : σ → Prop) : Prop where
  read : ∀ {h out h'}, P h → ssh.read pumpBuf h = .ok (out, h') → P h'
  write : ∀ {h rounds bytes ok h'}, P h → ssh.write rounds bytes h = .ok (ok, h') → P h'
  poll : ∀ {h ok h'}, P h → ssh.poll h = .ok (ok, h') → P h'

theorem ShimStep.host {P : σ → Prop} (hP : ssh.Keeps P) (hstep : ShimStep ssh fw s t)
    (hs : P s.host) : P t.host := by
  cases hstep with
  | pulled bytes host _ hread =>
      rw [(feedAll_typed fw bytes { s with
        host := host, log := .pulled bytes s.keyboard :: s.log }).host]
      exact hP.read hs hread
  | readLost host _ hread =>
      rw [((fireBreak_typed (lost .read host s)).trans (injectExit_typed _)).host]
      exact hP.read hs hread
  | injected => exact (injectExit_typed s).host ▸ hs
  | checked => exact (checkEsc_typed fw s).host ▸ hs
  | polled host _ hpoll | pollLost host _ hpoll => exact hP.poll hs hpoll
  | wrote _ _ host _ hwrite | writeLost _ _ host _ hwrite => exact hP.write hs hwrite
  | popped | reset | registered | noted => exact hs

theorem ShimReachable.host {host : σ} {c : Console σ} {P : σ → Prop} (hP : ssh.Keeps P)
    (h : ShimReachable ssh fw host c) (hhost : P host) : P c.host :=
  h.invariant (I := fun s => P s.host) (fun _ _ => ShimStep.host hP) hhost

end EfiSshServer
