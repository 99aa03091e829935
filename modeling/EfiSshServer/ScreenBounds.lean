import EfiSshServer.ConsoleInvariant
import EfiSshServer.Flow
import EfiSshServer.ShimHost
import EfiSshServer.ShimScenario

/-!
# The cursor and the size of the screen

Printing, positioning and clearing keep the cursor on the screen the shim knows.
`QueryMode` and `SetMode` take over the size the client has set meanwhile.  `SetMode`
then clears the screen, which puts the cursor to the origin; `QueryMode` leaves it where
it is, and a smaller screen may end before it.
-/

namespace EfiSshServer

open StateProgram DeferredWrap

variable {E : Env} {fw : Firmware Server} {rounds : ℕ} {scr : Screen} {c c' : Console Server}

/-! ## Bounds -/

/-- The cursor fields are inside a screen of this size. -/
def TextMode.InBounds (mode : TextMode) (cols rows : ℕ) : Prop :=
  (0 ≤ mode.cursorColumn.toInt ∧ mode.cursorColumn.toInt < cols) ∧
    (0 ≤ mode.cursorRow.toInt ∧ mode.cursorRow.toInt < rows)

instance (mode : TextMode) (cols rows : ℕ) : Decidable (mode.InBounds cols rows) :=
  inferInstanceAs (Decidable (_ ∧ _))

abbrev Screen.OnScreen (scr : Screen) : Prop :=
  scr.mode.InBounds scr.cols.toNat scr.rows.toNat

theorem ofNat_toNat_toInt {x : Int32} (hx : 0 ≤ x.toInt) : Int32.ofNat x.toInt.toNat = x := by
  rw [← Int32.ofInt_eq_ofNat, Int.toNat_of_nonneg hx, Int32.ofInt_toInt]

theorem Shows.onScreen {cur : Cursor} (h : Shows scr cur) (hsize : scr.Sized)
    (hin : scr.Holds cur) : scr.OnScreen := by
  have hcol := lt_trans hin.col hsize.cols
  have hrow := lt_trans hin.row hsize.rows
  have hcol' := hin.col
  have hrow' := hin.row
  rw [Screen.OnScreen, TextMode.InBounds, h.col, h.row, Int32.toInt_ofNat_of_lt (by omega),
    Int32.toInt_ofNat_of_lt (by omega)]
  omega

theorem Screen.OnScreen.shows (h : scr.OnScreen) : ∃ cur, Shows scr cur ∧ scr.Holds cur := by
  obtain ⟨⟨hcol, hcol'⟩, hrow, hrow'⟩ := h
  refine ⟨⟨scr.mode.cursorColumn.toInt.toNat, scr.mode.cursorRow.toInt.toNat, scr.pendingWrap⟩,
    ⟨(ofNat_toNat_toInt hcol).symm, (ofNat_toNat_toInt hrow).symm, rfl⟩, ?_, ?_⟩
  · dsimp only
    omega
  · dsimp only
    omega

theorem Screen.OnScreen.printChar (h : scr.OnScreen) (hsize : scr.Sized) (ch : UInt16) :
    (printChar ch scr).1.OnScreen ∧ (printChar ch scr).1.Sized := by
  obtain ⟨cur, hshows, hin⟩ := h.shows
  have hsize' : (EfiSshServer.printChar ch scr).1.Sized :=
    ⟨by rw [printChar_cols]; exact hsize.cols, by rw [printChar_rows]; exact hsize.rows⟩
  refine ⟨(hshows.printChar hsize hin ch).onScreen hsize' ?_, hsize'⟩
  rw [Screen.Holds, printChar_cols, printChar_rows]
  exact OnScreen.charMove hin

/-- What a client can set is small, and large enough. -/
theorem sized_resize (scr : Screen) (window : UInt32 × UInt32) (hcols : window.1 < 1000)
    (hrows : window.2 < 1000) :
    (scr.resize window).Sized ∧ 0 < (scr.resize window).cols.toNat ∧
      0 < (scr.resize window).rows.toNat := by
  rw [UInt32.lt_iff_toNat_lt] at hcols hrows
  have hcols' : 20 ≤ (scr.resize window).cols.toNat ∧ (scr.resize window).cols.toNat < 1000 := by
    simp only [Screen.resize]
    split
    · next hge =>
        rw [ge_iff_le, UInt32.le_iff_toNat_le] at hge
        exact ⟨hge, hcols⟩
    · exact ⟨by decide, by decide⟩
  have hrows' : 5 ≤ (scr.resize window).rows.toNat ∧ (scr.resize window).rows.toNat < 1000 := by
    simp only [Screen.resize]
    split
    · next hge =>
        rw [ge_iff_le, UInt32.le_iff_toNat_le] at hge
        exact ⟨hge, hrows⟩
    · exact ⟨by decide, by decide⟩
  exact ⟨⟨hcols'.2, hrows'.2⟩, by omega, by omega⟩

/-! ## The calls -/

/-- The cursor is on a screen of a size the shim can have. -/
structure Placed (scr : Screen) : Prop where
  sized : scr.Sized
  onScreen : scr.OnScreen

/-- Clearing puts the cursor to the origin. -/
theorem placed_home (hsize : scr.Sized) (hcols : 0 < scr.cols.toNat) (hrows : 0 < scr.rows.toNat) :
    Placed (((scr.setColumn 0).setRow 0).setWrap false) := by
  have hsize' : (((scr.setColumn 0).setRow 0).setWrap false).Sized := ⟨hsize.cols, hsize.rows⟩
  exact ⟨hsize', (shows_home scr).onScreen hsize' ⟨hcols, hrows⟩⟩

/-- The other fields of the mode do not matter. -/
theorem Placed.congr {mode : TextMode} (h : Placed scr)
    (hcursor : (mode.cursorColumn, mode.cursorRow) =
      (scr.mode.cursorColumn, scr.mode.cursorRow)) : Placed { scr with mode := mode } := by
  obtain ⟨hcolumn, hrow⟩ := Prod.mk.inj hcursor
  refine ⟨⟨h.sized.cols, h.sized.rows⟩, ?_⟩
  rw [Screen.OnScreen, TextMode.InBounds, hcolumn, hrow]
  exact h.onScreen

theorem emit_flush_placed (bytes : Bytes) (h : Placed c.screen) :
    wp (emit (serverSsh E) fw rounds bytes)
      (fun _ => wp (flush (serverSsh E) fw rounds) (fun _ c' => Placed c'.screen) anyStop)
      anyStop c := by
  refine wp.imp (emit_emitting bytes) fun _ c₁ h₁ => ?_
  refine wp.imp flush_emitting fun _ c₂ h₂ => ?_
  rw [h₂.screen, h₁.screen]
  exact h

theorem shimClearScreen_placed (hsize : c.screen.Sized) (hcols : 0 < c.screen.cols.toNat)
    (hrows : 0 < c.screen.rows.toNat) :
    wp (shimClearScreen (serverSsh E) fw rounds) (fun _ c' => Placed c'.screen) anyStop c := by
  simp only [shimClearScreen, wp_bind, wp_pure]
  refine wp.imp (emit_emitting _) fun _ c₁ h₁ => ?_
  simp only [setScreen, wp_modify]
  refine wp.imp flush_emitting fun _ c₂ h₂ => ?_
  rw [h₂.screen]
  dsimp only
  rw [h₁.screen]
  exact placed_home hsize hcols hrows

theorem printString_placed (string : List UInt16) (h : Placed c.screen) :
    wp (printString (serverSsh E) fw rounds string) (fun _ c' => Placed c'.screen) anyStop c := by
  induction string generalizing c with
  | nil => exact h
  | cons ch chs ih =>
      simp only [printString, wp_bind, wp_get]
      refine wp.imp (emit_emitting _) fun _ c₁ _ => ?_
      simp only [setScreen, wp_modify]
      obtain ⟨honScreen, hsize⟩ := h.onScreen.printChar h.sized ch
      exact ih ⟨hsize, honScreen⟩

/-- Every call but `QueryMode` keeps the cursor on the screen. -/
theorem runConsole_placed {call : ConsoleCall} (hcall : ∀ n, call ≠ .queryMode n)
    (hhost : Reachable E c.host) (h : Placed c.screen) :
    wp (runConsole (serverSsh E) fw rounds call) (fun _ c' => Placed c'.screen) anyStop c := by
  obtain ⟨cur, -, hin⟩ := h.onScreen.shows
  have hcols := Nat.zero_lt_of_lt hin.col
  have hrows := Nat.zero_lt_of_lt hin.row
  have hkept : ∀ {α : Type} (m : ShimM Server α),
      wp (onShim m) (fun _ c' => Placed c'.screen) anyStop c := by
    intro α m
    rw [wp_onShim]
    exact wp.imp wp.trivial fun _ _ _ => h
  cases call <;> simp only [runConsole, wp_bind, wp_pure]
  case outputString string =>
    simp only [shimOutputString, wp_bind, wp_pure]
    refine wp.imp pollSometimes_emitting fun _ c₁ h₁ => ?_
    refine wp.imp (printString_placed string (by rw [h₁.screen]; exact h)) fun _ c₂ h₂ => ?_
    refine wp.imp flush_emitting fun _ c₃ h₃ => ?_
    rw [h₃.screen]
    exact h₂
  case testString => exact h
  case queryMode n => exact absurd rfl (hcall n)
  case setMode n =>
    refine wp.ite (fun _ => h) fun _ => ?_
    simp only [setScreen, refreshSize, wp_bind, wp_modify]
    obtain ⟨hwide, hhigh⟩ := hhost.window_lt
    obtain ⟨hsize, hcols', hrows'⟩ := sized_resize
      { c.screen with mode := { c.screen.mode with mode := 0 } }
      ((serverSsh E).window c.host) hwide hhigh
    exact shimClearScreen_placed hsize hcols' hrows'
  case setAttribute value =>
    refine wp.ite (fun _ => h) fun _ => ?_
    simp only [setScreen, wp_bind, wp_modify, wp_pure]
    refine emit_flush_placed _ ?_
    exact h.congr rfl
  case clearScreen => exact shimClearScreen_placed h.sized hcols hrows
  case setCursorPosition column row =>
    refine wp.ite (fun _ => h) fun haccept => ?_
    simp only [not_or, ge_iff_le, UInt64.not_le] at haccept
    simp only [setScreen, wp_bind, wp_modify, wp_pure]
    obtain ⟨hshows, hholds⟩ := shows_position h.sized haccept.1 haccept.2
    refine emit_flush_placed _ ?_
    exact ⟨⟨h.sized.cols, h.sized.rows⟩, hshows.onScreen ⟨h.sized.cols, h.sized.rows⟩ hholds⟩
  case enableCursor visible =>
    simp only [shimEnableCursor, setScreen, wp_bind, wp_modify, wp_pure]
    refine emit_flush_placed _ ?_
    exact h.congr rfl
  case outReset =>
    simp only [shimOutReset, setScreen, wp_bind, wp_modify]
    refine wp.imp (emit_emitting _) fun _ c₁ h₁ => ?_
    refine wp.imp flush_emitting fun _ c₂ h₂ => ?_
    have hscreen := h₂.screen.trans h₁.screen
    refine shimClearScreen_placed ?_ ?_ ?_ <;> rw [hscreen]
    · exact ⟨h.sized.cols, h.sized.rows⟩
    · exact hcols
    · exact hrows
  case inReset => exact hkept _
  case readKey => exact hkept _
  case readKeyEx given => exact hkept _
  case waitKey => exact hkept _
  case registerNotify kd fn wanted => exact hkept _
  case unregisterNotify handle => exact hkept _

/-! ## Runs -/

theorem shimInstall_placed (hhost : Reachable E c.host) :
    wp (shimInstall (serverSsh E) fw rounds) (fun _ c' => Placed c'.screen) anyStop c := by
  obtain ⟨hwide, hhigh⟩ := hhost.window_lt
  obtain ⟨hsize, hcols, hrows⟩ := sized_resize c.screen ((serverSsh E).window c.host)
    hwide hhigh
  simp only [shimInstall, refreshSize, setScreen, wp_bind, wp_modify, wp_pure]
  refine emit_flush_placed _ ?_
  exact ⟨⟨hsize.cols, hsize.rows⟩, ⟨le_refl _, by simpa using hcols⟩, le_refl _,
    by simpa using hrows⟩

/-- The screen after a `QueryMode` that has an answer. -/
theorem queryMode_screen {n : UInt64} :
    wp (runConsole (serverSsh E) fw rounds (.queryMode n))
      (fun _ c' => c'.screen =
        if n = 0 then c.screen.resize ((serverSsh E).window c.host) else c.screen) anyStop c := by
  simp only [runConsole, shimQueryMode, refreshSize, wp_bind, wp_pure]
  refine wp.ite (fun hmode => ?_) fun hmode => ?_
  · rw [if_neg hmode]
    exact rfl
  · rw [if_pos (not_not.mp hmode)]
    simp only [wp_bind, wp_modify]
    exact rfl

/-- In every state from `s` to `c` the cursor is on the screen, and behind every
`QueryMode` on the way it is inside the size that was returned. -/
def StaysOnScreen (E : Env) (fw : Firmware Server) (s c : Console Server) : Prop :=
  (∀ u, ConsoleRuns (serverSsh E) fw s u → ConsoleRuns (serverSsh E) fw u c → u.screen.OnScreen) ∧
    ∀ u v n size, ConsoleRuns (serverSsh E) fw s u →
      shimQueryMode (serverSsh E) n u = .ok ((efiSuccess, some size), v) →
      ConsoleRuns (serverSsh E) fw v c → v.screen.mode.InBounds size.1.toNat size.2.toNat

/-- Every `QueryMode` on the way from `s` to `c` finds a window that holds the cursor. -/
def QueriesFit (E : Env) (fw : Firmware Server) (s c : Console Server) : Prop :=
  ∀ rounds u v, ConsoleRuns (serverSsh E) fw s u →
    runConsole (serverSsh E) fw rounds (.queryMode 0) u = .ok ((), v) →
    ConsoleRuns (serverSsh E) fw v c →
      (u.screen.resize ((serverSsh E).window u.host)).OnScreen

/-- The calls that do not ask for the size keep the cursor on the screen, so it stays there
on the way to `c` if each `QueryMode` leaves it there. -/
theorem placed_of_queries {host : Server} {s : Console Server} (hhost : Reachable E host)
    (hinstall : Installed (serverSsh E) fw host s)
    (hqueries : ∀ rounds u v, ConsoleRuns (serverSsh E) fw s u →
      runConsole (serverSsh E) fw rounds (.queryMode 0) u = .ok ((), v) →
      ConsoleRuns (serverSsh E) fw v c → Placed u.screen →
        (u.screen.resize ((serverSsh E).window u.host)).OnScreen) {u : Console Server}
    (hsu : ConsoleRuns (serverSsh E) fw s u) :
    ConsoleRuns (serverSsh E) fw u c → Placed u.screen := by
  induction hsu with
  | none =>
      intro _
      obtain ⟨rounds, hrun⟩ := hinstall
      exact (shimInstall_placed hhost).ok hrun
  | @call u v hsu rounds call hrun ih =>
      intro hvc
      have hplaced := ih ((ConsoleRuns.none.call rounds call hrun).trans hvc)
      have hreach : Reachable E u.host :=
        ShimReachable.host (serverSsh_keeps fun call h => h.call call) ⟨s, hinstall, hsu⟩ hhost
      by_cases hquery : ∃ n, call = .queryMode n
      · obtain ⟨n, rfl⟩ := hquery
        have hscreen := queryMode_screen.ok hrun
        by_cases hmode : n = 0
        · subst hmode
          rw [hscreen, if_pos rfl]
          obtain ⟨hwide, hhigh⟩ := hreach.window_lt
          exact ⟨(sized_resize u.screen _ hwide hhigh).1, hqueries rounds u v hsu hrun hvc hplaced⟩
        · rw [hscreen, if_neg hmode]
          exact hplaced
      · exact (runConsole_placed (fun n heq => hquery ⟨n, heq⟩) hreach hplaced).ok hrun

/-- The cursor stays on the screen if and only if no `QueryMode` finds that the client has
made the window too small for it. -/
theorem stays_on_screen_iff {host : Server} {s : Console Server} (hhost : Reachable E host)
    (hinstall : Installed (serverSsh E) fw host s) :
    StaysOnScreen E fw s c ↔ QueriesFit E fw s c := by
  constructor
  · rintro ⟨hstays, -⟩ rounds u v hsu hrun hvc
    have honScreen := hstays v (hsu.call rounds _ hrun) hvc
    rwa [queryMode_screen.ok hrun, if_pos rfl] at honScreen
  · intro hfit
    have hplaced : ∀ u, ConsoleRuns (serverSsh E) fw s u → ConsoleRuns (serverSsh E) fw u c →
        Placed u.screen := fun u hsu =>
      placed_of_queries hhost hinstall (fun rounds u v hsu hrun hvc _ =>
        hfit rounds u v hsu hrun hvc) hsu
    refine ⟨fun u hsu huc => (hplaced u hsu huc).onScreen, fun u v n size hsu hquery hvc => ?_⟩
    have hrun : runConsole (serverSsh E) fw 0 (.queryMode n) u = .ok ((), v) := bind_ok hquery
    have honScreen := (hplaced v (hsu.call 0 _ hrun) hvc).onScreen
    have hsize : wp (shimQueryMode (serverSsh E) n) (fun out v => ∀ size, out.2 = some size →
        size.1.toNat = v.screen.cols.toNat ∧ size.2.toNat = v.screen.rows.toNat) anyStop u := by
      simp only [shimQueryMode, refreshSize]
      refine wp.ite (fun _ _ h => by cases h) fun _ => ?_
      rintro size ⟨⟩
      simp
    obtain ⟨hcols, hrows⟩ := hsize.ok hquery size rfl
    rw [hcols, hrows]
    exact honScreen

/-! ## A client that keeps its window to itself -/

/-- The dispatch of a request that tells the size of the client's window. -/
def Event.tellsSize : Event → Bool
  | .dispatch q .. => EfiSshServer.tellsSize q
  | _ => false

/-- No request told the size of the client's window. -/
def Untold (log : List Event) : Prop := ∀ e ∈ log, e.tellsSize = false

instance (log : List Event) : Decidable (Untold log) :=
  inferInstanceAs (Decidable (∀ e ∈ log, e.tellsSize = false))

theorem Untold.of_suffix {log log' : List Event} (h : Untold log') (hgrown : log <:+ log') :
    Untold log :=
  fun e he => h e (hgrown.mem he)

/-- Its size is then the default. -/
theorem Reachable.window_default {host : Server} (h : Reachable E host)
    (huntold : Untold host.link.log) : (serverSsh E).window host = (80, 25) := by
  have hsize : Untold host.link.log →
      host.link.conn.chan.view.cols = 80 ∧ host.link.conn.chan.view.rows = 25 := by
    refine h.invariant (I := fun s => Untold s.log → s.conn.chan.view.cols = 80 ∧
      s.conn.chan.view.rows = 25) (fun _ _ _ => ⟨rfl, rfl⟩) fun s t hstep hs huntold => ?_
    have hpast := huntold.of_suffix hstep.grown
    have hnot : ¬ ∃ q, Handling s q ∧ tellsSize q = true := by
      rintro ⟨q, ⟨packet, mac, c, log, hlog, -⟩, hsize⟩
      have hquiet := hpast (.dispatch q packet mac c) (hlog ▸ List.mem_cons_self)
      rw [Event.tellsSize, hsize] at hquiet
      cases hquiet
    obtain ⟨hcols, hrows⟩ := hstep.view.size_eq hnot
    rw [hcols, hrows]
    exact hs hpast
  obtain ⟨hcols, hrows⟩ := hsize huntold
  exact Prod.ext hcols hrows

/-- The log of the server only grows under the shim. -/
theorem serverSsh_grows (log : List Event) :
    (serverSsh E).Keeps fun h => Reachable E h ∧ log <:+ h.link.log :=
  serverSsh_keeps fun call ⟨hreach, hgrown⟩ hrun =>
    ⟨hreach.call call hrun, hgrown.trans (hreach.call_steps hrun).grown⟩

/-- The screen has the default size as long as the client has not told another. -/
def DefaultSize (E : Env) (c : Console Server) : Prop :=
  Reachable E c.host ∧ (Untold c.host.link.log → c.screen.cols = 80 ∧ c.screen.rows = 25)

theorem DefaultSize.congr (h : DefaultSize E c) (hhost : Reachable E c'.host ∧
    c.host.link.log <:+ c'.host.link.log) (hscreen : c'.screen = c.screen) : DefaultSize E c' :=
  ⟨hhost.1, fun huntold => hscreen ▸ h.2 (huntold.of_suffix hhost.2)⟩

/-- A part of a call that leaves the screen alone. -/
theorem DefaultSize.steps (h : DefaultSize E c) (hsteps : ShimSteps (serverSsh E) fw c.toShim
    c'.toShim) (hscreen : c'.screen = c.screen) : DefaultSize E c' := by
  refine h.congr ?_ hscreen
  exact hsteps.invariant (I := fun s => Reachable E s.host ∧ c.host.link.log <:+ s.host.link.log)
    (fun _ _ hstep => hstep.host (serverSsh_grows _)) ⟨h.1, List.suffix_refl _⟩

theorem DefaultSize.refresh (hhost : Reachable E c.host) :
    DefaultSize E { c with screen := c.screen.resize ((serverSsh E).window c.host) } := by
  refine ⟨hhost, fun huntold => ?_⟩
  dsimp only at huntold ⊢
  rw [hhost.window_default huntold]
  exact ⟨rfl, rfl⟩

theorem defaultSize_consoleInvariant : ConsoleInvariant (serverSsh E) fw (DefaultSize E) where
  fields _ _ hcols hrows h := ⟨h.1, fun huntold => by
    dsimp only
    rw [hcols, hrows]
    exact h.2 huntold⟩
  refresh c h := DefaultSize.refresh h.1
  flush c h := wp.imp (flush_steps.both flush_emitting) fun _ _ hflush =>
    h.steps hflush.1 hflush.2.screen
  poll c h := wp.imp ((pollSometimes_steps fw).both pollSometimes_emitting) fun _ _ hpoll =>
    h.steps hpoll.1 hpoll.2.screen
  input c := {
    typed := fun htyped h => h.congr (by
      rw [htyped.host]
      exact ⟨h.1, List.suffix_refl _⟩) rfl
    keyboard := fun _ h => h
    record := fun _ h => h
    read := fun hread h => h.congr ((serverSsh_grows _).read ⟨h.1, List.suffix_refl _⟩ hread) rfl
    lose := fun h => h }

/-- The cursor stays on the screen of a client that never tells the size of its window. -/
theorem queriesFit_of_untold {host : Server} {s : Console Server} (hhost : Reachable E host)
    (hinstall : Installed (serverSsh E) fw host s) (huntold : Untold c.host.link.log) :
    QueriesFit E fw s c := by
  have hstart : DefaultSize E s := by
    obtain ⟨rounds, hrun⟩ := hinstall
    exact (defaultSize_consoleInvariant.shimInstall_of_refresh (.refresh hhost)).ok hrun
  have hsize : ∀ u, ConsoleRuns (serverSsh E) fw s u → ConsoleRuns (serverSsh E) fw u c →
      u.screen.resize ((serverSsh E).window u.host) = u.screen := by
    intro u hsu huc
    obtain ⟨hreach, hdefault⟩ := defaultSize_consoleInvariant.runs hsu hstart
    have hgrown := huc.steps.invariant (I := fun t => Reachable E t.host ∧
      u.host.link.log <:+ t.host.link.log) (fun _ _ hstep => hstep.host (serverSsh_grows _))
      ⟨hreach, List.suffix_refl _⟩
    have hpast := huntold.of_suffix hgrown.2
    obtain ⟨hcols, hrows⟩ := hdefault hpast
    rw [hreach.window_default hpast, Screen.resize, if_pos (by decide), if_pos (by decide),
      ← hcols, ← hrows]
  have hfits : ∀ rounds u v, ConsoleRuns (serverSsh E) fw s u →
      runConsole (serverSsh E) fw rounds (.queryMode 0) u = .ok ((), v) →
      ConsoleRuns (serverSsh E) fw v c → Placed u.screen →
        (u.screen.resize ((serverSsh E).window u.host)).OnScreen := by
    intro rounds u v hsu hrun hvc hplaced
    rw [hsize u hsu ((ConsoleRuns.none.call rounds _ hrun).trans hvc)]
    exact hplaced.onScreen
  intro rounds u v hsu hrun hvc
  have huc := (ConsoleRuns.none.call rounds _ hrun).trans hvc
  exact hfits rounds u v hsu hrun hvc (placed_of_queries hhost hinstall hfits hsu huc)

/-- A shim whose client never tells its window size: the cursor is on the screen behind
the `QueryMode`. -/
theorem stays_on_screen_plain : ∃ (host : Server) (s u c : Console Server),
    Reachable (plainEnv fun _ _ => true) host ∧
    Installed (serverSsh (plainEnv fun _ _ => true)) quietFirmware host s ∧
    ConsoleRuns (serverSsh (plainEnv fun _ _ => true)) quietFirmware s u ∧
    runConsole (serverSsh (plainEnv fun _ _ => true)) quietFirmware scenarioRounds (.queryMode 0)
      u = .ok ((), c) ∧
    c.screen.mode.cursorColumn = 2 ∧
    StaysOnScreen (plainEnv fun _ _ => true) quietFirmware s c ∧
    QueriesFit (plainEnv fun _ _ => true) quietFirmware s c := by
  obtain ⟨host, u, hhost, -, ⟨s, hinstall, hruns⟩, hquery⟩ :=
    exists_shim (E := plainEnv fun _ _ => true)
      (P := fun u => (runConsole (serverSsh (plainEnv fun _ _ => true)) quietFirmware
        scenarioRounds (.queryMode 0) u).toOption.any (fun out => decide
          (out.2.screen.mode.cursorColumn = 2 ∧ Untold out.2.host.link.log)) = true)
      [.clearScreen, .outputString [108, 115]]
      [.data (clientShell "root" "secret")] (by decide +kernel)
  obtain ⟨⟨⟨⟩, c⟩, hrun, hcolumn, huntold⟩ := exists_ok hquery
  have hfit := queriesFit_of_untold hhost hinstall huntold
  exact ⟨host, s, u, c, hhost, hinstall, hruns, hrun, hcolumn,
    (stays_on_screen_iff hhost hinstall).mpr hfit, hfit⟩

/-- A `window-change` request without a reply. -/
def windowChange (cols rows : UInt32) : Bytes :=
  (((wInit sshPlBuf).wByte msgChannelRequest).wU32 0 |>.wCStr "window-change" |>.wByte 0
    |>.wU32 cols |>.wU32 rows |>.wU32 0 |>.wU32 0).data

/-- The cursor stands in column 60 when the client makes its window 40 columns wide: the
next `QueryMode` returns 40 columns and leaves the cursor where it is. -/
theorem query_leaves_screen : ∃ (host : Server) (s c : Console Server),
    Reachable (plainEnv fun _ _ => true) host ∧
    Installed (serverSsh (plainEnv fun _ _ => true)) quietFirmware host s ∧
    ConsoleRuns (serverSsh (plainEnv fun _ _ => true)) quietFirmware s c ∧
    ¬ StaysOnScreen (plainEnv fun _ _ => true) quietFirmware s c := by
  obtain ⟨host, c, hhost, -, ⟨s, hinstall, hruns⟩, hoff⟩ :=
    exists_shim (E := plainEnv fun _ _ => true)
      (P := fun c => ¬ c.screen.OnScreen)
      [.setCursorPosition 60 10, .waitKey, .queryMode 0]
      [.data (clientShell "root" "secret"), .data [], .data (sealedFrame (windowChange 40 25))]
      (by decide +kernel)
  exact ⟨host, s, c, hhost, hinstall, hruns, fun hstays => hoff (hstays.1 c hruns .none)⟩

end EfiSshServer
