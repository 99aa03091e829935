import EfiSshServer.CursorModel

/-!
# Assertions about the console shim

The shim does few things to the connection and to its log; all else it does is typing and
moving the cursor.

* An `InputInvariant` is kept by what reading keys is made of; `InputInvariant.pumpInput` and
  the lemmas behind it take the input side apart.
* A `ConsoleInvariant` is kept by `Flush`, by the poll of `ShimOutputString` and by
  `RefreshSize`, each as a whole, and of the rest of the output side it looks at the size of
  the screen only; `ConsoleInvariant.runConsole` says that every call keeps it.
-/

namespace EfiSshServer

open StateProgram RingBuffer ShimM

variable {σ : Type} {ssh : Ssh σ} {fw : Firmware σ} {rounds : ℕ} {K : Shim σ → Prop}
  {J : Console σ → Prop}

/-- The events of `Flush`. -/
def ShimEvent.isOutput : ShimEvent σ → Bool
  | .wrote .. | .flushed _ | .mirrored _ => true
  | _ => false

theorem ShimEvent.isOutput_of_isTyping {e : ShimEvent σ} (h : e.isTyping = true) :
    e.isOutput = false := by
  cases e <;> first | rfl | cases h

/-- An assertion that reading keys keeps. -/
structure InputInvariant (ssh : Ssh σ) (K : Shim σ → Prop) : Prop where
  typed : ∀ {s t}, Typed s t → K s → K t
  keyboard : ∀ {s} (kb : Keyboard), K s → K { s with keyboard := kb }
  record : ∀ {s} {e : ShimEvent σ}, e.isOutput = false → K s → K { s with log := e :: s.log }
  read : ∀ {s out host}, ssh.read pumpBuf s.host = .ok (out, host) → K s →
    K { s with host := host }
  lose : ∀ {s}, K s → K { s with disconnected := true }

namespace InputInvariant

variable (hK : InputInvariant ssh K)

include hK

theorem event {e : ShimEvent σ} (he : e.isOutput = false) : Keeps K (ShimM.record e) :=
  fun _ hs => hK.record he hs

theorem typing {m : Shim σ → Shim σ} (h : ∀ s, Typed s (m s)) :
    Keeps K (modify m : ShimM σ PUnit) :=
  fun s hs => hK.typed (h s) hs

theorem change (f : Shim σ → Keyboard) {e : ShimEvent σ} (he : e.isOutput = false) :
    Keeps K (modify fun s => { s with keyboard := f s, log := e :: s.log } : ShimM σ PUnit) := by
  intro s hs
  rw [wp_modify]
  exact hK.record he (hK.keyboard (f s) hs)

theorem loss (source : LossSource) (before : σ) : Keeps K (ShimM.lose source before) :=
  fun _ hs => hK.record (e := .gone ..) rfl (hK.lose hs)

theorem pumpRounds : Keeps K (pumpRounds ssh fw rounds) := by
  induction rounds with
  | zero => exact .throw _
  | succ rounds ih =>
      refine .bind (fun _ hs => hs) fun before => .bind ?_ fun out => ?_
      · exact fun s hs => wp_call_of_ok fun out host hread => hK.read hread hs
      cases out with
      | none =>
          refine .bind (hK.loss _ _) fun _ => .bind (hK.typing fireBreak_typed) fun _ => ?_
          exact .bind (hK.typing injectExit_typed) fun _ => .pure _
      | some bytes =>
          refine .bind (hK.event rfl) fun _ => ?_
          refine .bind (hK.typing (feedAll_typed fw bytes)) fun _ => ?_
          exact .ite (fun _ => .pure _) fun _ => ih

theorem pumpInput : Keeps K (pumpInput ssh fw rounds) := by
  refine .bind (fun _ hs => hs) fun s => .ite (fun _ => ?_) fun _ => ?_
  · exact .bind (hK.typing injectExit_typed) fun _ => hK.event rfl
  · refine .bind hK.pumpRounds fun ok => .ite (fun _ => ?_) fun _ => hK.event rfl
    exact .bind (hK.typing (checkEsc_typed fw)) fun _ => hK.event rfl

theorem readCommon : Keeps K (readCommon ssh fw rounds) := by
  have hpop : Keeps K popKey := by
    refine .bind (fun _ hs => hs) fun s => .ite (fun _ => .pure _) fun _ => ?_
    exact .bind (hK.change _ rfl) fun _ => .pure _
  refine .bind hK.pumpInput fun _ => .bind hpop fun out => ?_
  cases out with
  | some kd => exact .pure _
  | none =>
      refine .bind (fun _ hs => hs) fun s => .ite (fun _ => ?_) fun _ => .pure _
      exact .bind (hK.event rfl) fun _ => .pure _

theorem shimInReset : Keeps K shimInReset :=
  .bind (hK.change _ rfl) fun _ => .pure _

theorem shimWaitKeyNotify : Keeps K (shimWaitKeyNotify ssh fw rounds) := by
  refine .bind hK.pumpInput fun _ => .bind (fun _ hs => hs) fun s => ?_
  refine .ite (fun _ => hK.event rfl) fun _ => .ite (fun _ => ?_) fun _ => .pure _
  exact .bind (hK.event rfl) fun _ => .ite (fun _ => hK.event rfl) fun _ => .pure _

theorem shimRegisterNotify (kd : Option KeyData) (fn : Option ℕ) (wanted : Bool) :
    Keeps K (shimRegisterNotify kd fn wanted) := by
  unfold EfiSshServer.shimRegisterNotify
  split
  · refine .bind (fun _ hs => hs) fun s => ?_
    split
    · exact .bind (fun _ hs => hK.keyboard _ hs) fun _ => .pure _
    · exact .pure _
  · exact .pure _

theorem shimUnregisterNotify (handle : Option (Fin shimMaxNotify)) :
    Keeps K (shimUnregisterNotify handle) := by
  unfold EfiSshServer.shimUnregisterNotify
  split
  · refine .bind (fun _ hs => hs) fun s => .ite (fun _ => ?_) fun _ => .pure _
    exact .bind (fun _ hs => hK.keyboard _ hs) fun _ => .pure _
  · exact .pure _

end InputInvariant

/-- An assertion that every call of the console keeps. -/
structure ConsoleInvariant (ssh : Ssh σ) (fw : Firmware σ) (J : Console σ → Prop) : Prop where
  fields : ∀ {con : Console σ} (screen : Screen) (outBuf : Bytes), screen.cols = con.screen.cols →
    screen.rows = con.screen.rows → J con → J { con with screen := screen, outBuf := outBuf }
  refresh : Keeps J (refreshSize ssh)
  flush : ∀ {rounds}, Keeps J (flush ssh fw rounds)
  poll : Keeps J (pollSometimes ssh)
  input : ∀ con : Console σ, InputInvariant ssh fun s => J { con with toShim := s }

namespace ConsoleInvariant

variable (hJ : ConsoleInvariant ssh fw J)

include hJ

theorem set {f : Screen → Screen} (hcols : ∀ scr, (f scr).cols = scr.cols)
    (hrows : ∀ scr, (f scr).rows = scr.rows) : Keeps J (setScreen f) :=
  fun _ hs => hJ.fields _ _ (hcols _) (hrows _) hs

theorem emitByte (b : UInt8) : Keeps J (emitByte ssh fw rounds b) := by
  have hstore : Keeps J (modify fun s => { s with outBuf := s.outBuf ++ [b] } : ConsoleM σ PUnit) :=
    fun _ hs => hJ.fields _ _ rfl rfl hs
  refine .bind (fun _ hs => hs) fun s => .ite (fun _ => ?_) fun _ => hstore
  exact .bind hJ.flush fun _ => hstore

theorem emit (bytes : Bytes) : Keeps J (emit ssh fw rounds bytes) := by
  induction bytes with
  | nil => exact .pure _
  | cons b bs ih => exact .bind (hJ.emitByte b) fun _ => ih

/-- The shape of most output calls. -/
theorem emit_flush (bytes : Bytes) : Keeps J (do
    EfiSshServer.emit ssh fw rounds bytes
    EfiSshServer.flush ssh fw rounds
    return efiSuccess) :=
  .bind (hJ.emit bytes) fun _ => .bind hJ.flush fun _ => .pure _

theorem shimClearScreen : Keeps J (shimClearScreen ssh fw rounds) :=
  .bind (hJ.emit _) fun _ =>
    .bind (hJ.set (fun _ => rfl) fun _ => rfl) fun _ => .bind hJ.flush fun _ => .pure _

theorem printString (string : List UInt16) : Keeps J (printString ssh fw rounds string) := by
  induction string with
  | nil => exact .pure _
  | cons ch chs ih =>
      intro con hcon
      simp only [EfiSshServer.printString, wp_bind, wp_get]
      refine wp.imp ((hJ.emit _ con hcon).both (emit_emitting _)) fun _ con₁ h₁ => ?_
      simp only [setScreen, wp_modify]
      refine ih _ (hJ.fields _ _ ?_ ?_ h₁.1)
      · rw [printChar_cols, h₁.2.screen]
      · rw [printChar_rows, h₁.2.screen]

omit hJ in
/-- The input side leaves the output side alone. -/
theorem onShim {α : Type} {m : ShimM σ α}
    (hm : ∀ con : Console σ, Keeps (fun s => J { con with toShim := s }) m) :
    Keeps J (onShim m) := by
  intro con hcon
  rw [wp_onShim]
  exact hm con con.toShim hcon

/-- Every call keeps the assertion. -/
theorem runConsole (call : ConsoleCall) : Keeps J (runConsole ssh fw rounds call) := by
  cases call with
  | outputString string =>
      refine .bind (.bind hJ.poll fun _ => ?_) fun _ => .pure _
      exact .bind (hJ.printString string) fun _ => .bind hJ.flush fun _ => .pure _
  | testString => exact .bind (.pure _) fun _ => .pure _
  | queryMode modeNumber =>
      refine .bind (.ite (fun _ => .pure _) fun _ => .bind hJ.refresh fun _ => ?_) fun _ => .pure _
      exact .bind (fun _ hs => hs) fun _ => .pure _
  | setMode modeNumber =>
      refine .bind (.ite (fun _ => .pure _) fun _ => ?_) fun _ => .pure _
      refine .bind (hJ.set (fun _ => rfl) fun _ => rfl) fun _ => ?_
      exact .bind hJ.refresh fun _ => hJ.shimClearScreen
  | setAttribute value =>
      refine .bind (.ite (fun _ => .pure _) fun _ => ?_) fun _ => .pure _
      refine .bind (hJ.set (fun _ => rfl) fun _ => rfl) fun _ => ?_
      exact hJ.emit_flush _
  | clearScreen => exact .bind hJ.shimClearScreen fun _ => .pure _
  | setCursorPosition column row =>
      refine .bind (.bind (fun _ hs => hs) fun s => .ite (fun _ => .pure _) fun _ => ?_)
        fun _ => .pure _
      exact .bind (hJ.set (fun _ => rfl) fun _ => rfl) fun _ => hJ.emit_flush _
  | enableCursor visible =>
      refine .bind (.bind (hJ.set (fun _ => rfl) fun _ => rfl) fun _ => ?_) fun _ => .pure _
      exact hJ.emit_flush _
  | outReset =>
      refine .bind (.bind (hJ.set (fun _ => rfl) fun _ => rfl) fun _ => ?_) fun _ => .pure _
      exact .bind (hJ.emit _) fun _ => .bind hJ.flush fun _ => hJ.shimClearScreen
  | inReset =>
      exact .bind (ConsoleInvariant.onShim fun con => (hJ.input con).shimInReset) fun _ => .pure _
  | readKey =>
      refine .bind (ConsoleInvariant.onShim fun con => ?_) fun _ => .pure _
      exact .bind (hJ.input con).readCommon fun _ => .pure _
  | readKeyEx given =>
      refine .bind (ConsoleInvariant.onShim fun con => ?_) fun _ => .pure _
      exact .ite (fun _ => (hJ.input con).readCommon) fun _ => .pure _
  | waitKey => exact ConsoleInvariant.onShim fun con => (hJ.input con).shimWaitKeyNotify
  | registerNotify kd fn wanted =>
      refine .bind (ConsoleInvariant.onShim fun con => ?_) fun _ => .pure _
      exact (hJ.input con).shimRegisterNotify kd fn wanted
  | unregisterNotify handle =>
      refine .bind (ConsoleInvariant.onShim fun con => ?_) fun _ => .pure _
      exact (hJ.input con).shimUnregisterNotify handle

/-- `ShimInstall` starts with `RefreshSize`. -/
theorem shimInstall_of_refresh {con : Console σ}
    (hcon : J { con with screen := con.screen.resize (ssh.window con.host) }) :
    wp (shimInstall ssh fw rounds) (fun _ con' => J con') anyStop con := by
  have hrest : Keeps J (do
      setScreen fun scr => { scr with mode := ⟨0, 0x07, 0, 0, true⟩ }
      EfiSshServer.emit ssh fw rounds (ascii "\x1b[0m")
      EfiSshServer.flush ssh fw rounds
      return efiSuccess) :=
    .bind (hJ.set (fun _ => rfl) fun _ => rfl) fun _ => hJ.emit_flush _
  exact hrest _ hcon

theorem shimInstall : Keeps J (shimInstall ssh fw rounds) :=
  fun con hcon => hJ.shimInstall_of_refresh (hJ.refresh con hcon)

/-- What every call keeps, a run keeps. -/
theorem runs {con con' : Console σ} (h : ConsoleRuns ssh fw con con') (hcon : J con) : J con' := by
  induction h with
  | none => exact hcon
  | call _ rounds call hrun ih => exact (hJ.runConsole call _ ih).ok hrun

end ConsoleInvariant

end EfiSshServer
