import EfiSshServer.Page

/-!
# What a `ClearScreen` finds

`ClearScreen` erases the text, but it neither sets the colours nor shows the cursor: for
those the display must be right already.  A display that is `Tuned` reads the next byte
outside every sequence, writes in the colours of the attribute and shows its cursor when the
shim says so; its text may be another.

Every call with a plain string keeps the display tuned, also where the client resizes its
window at the same time: colours and parser do not depend on the size.
-/

namespace EfiSshServer

open StateProgram DeferredWrap

variable {σ : Type} {ssh : Ssh σ} {fw : Firmware σ} {rounds : ℕ} {con con' con'' : Console σ}
  {scr scr' : Screen} {page page' : Page} {d d' : Display} {f g : Page → Page} {bytes : Bytes}
  {c : UInt16} {cols rows : ℕ}

/-! ## The relation -/

/-- The display is ready for a `ClearScreen`. -/
structure Tuned (scr : Screen) (page : Page) (d : Display) : Prop where
  ground : d.terminal.parser = .ground
  attr : scr.mode.textAttribute = page.attr.toUInt32.toInt32
  cursorVisible : scr.mode.cursorVisible = page.visible
  pen : d.pen = efiPen page.attr
  visible : d.visible = page.visible

theorem Tuned.alike (h : Tuned scr page d) (halike : d.Alike d') : Tuned scr page d' :=
  ⟨halike.parser.trans h.ground, h.attr, h.cursorVisible, halike.pen.trans h.pen,
    halike.visible.trans h.visible⟩

/-- Text and cursor do not matter. -/
theorem Tuned.congr (h : Tuned scr page d) (hattr : page'.attr = page.attr)
    (hvisible : page'.visible = page.visible)
    (hmode : scr'.mode.textAttribute = scr.mode.textAttribute ∧
      scr'.mode.cursorVisible = scr.mode.cursorVisible) : Tuned scr' page' d where
  ground := h.ground
  attr := by rw [hmode.1, hattr, h.attr]
  cursorVisible := by rw [hmode.2, hvisible, h.cursorVisible]
  pen := by rw [hattr, h.pen]
  visible := by rw [hvisible, h.visible]

/-! ## What a character does -/

/-- The text of a character. -/
theorem alike_printChar (hground : d.terminal.parser = .ground) (hplain : isPlain c = true) :
    d.Alike (d.feedAll cols rows (printChar c scr).2) := by
  obtain ⟨⟨cur, parser⟩, cells, pen, visible⟩ := d
  obtain rfl : parser = .ground := hground
  unfold printChar
  split
  · exact ⟨rfl, rfl, rfl⟩
  next hlf =>
  split
  · exact ⟨rfl, rfl, rfl⟩
  next hcr =>
  split
  · split
    · exact ⟨rfl, rfl, rfl⟩
    · exact ⟨rfl, rfl, rfl⟩
  next hbs =>
  split
  · exact ⟨rfl, rfl, rfl⟩
  next htab =>
    have hprint := isPrintable_of_isPlain hplain hlf hcr hbs htab
    rw [if_neg (not_lt_of_isPrintable hprint), display_utf8 hprint]
    exact ⟨rfl, rfl, rfl⟩

/-! ## The calls -/

/-- The call emitted `bytes`, which keep every display in tune, whatever its size. -/
structure Tunes (f : Page → Page) (bytes : Bytes) (con con' : Console σ) : Prop where
  emitted : emitted con' = emitted con ++ bytes
  usual : con.screen.Usual → con'.screen.Usual
  tuned : ∀ {page d}, Tuned con.screen page d → ∀ cols rows,
    Tuned con'.screen (f page) (d.feedAll cols rows bytes)

theorem Tunes.trans {xs ys : Bytes} (h : Tunes f xs con con') (h' : Tunes g ys con' con'') :
    Tunes (fun page => g (f page)) (xs ++ ys) con con'' where
  emitted := by rw [h'.emitted, h.emitted, List.append_assoc]
  usual hsize := h'.usual (h.usual hsize)
  tuned htuned cols rows := by
    rw [Display.feedAll_append]
    exact h'.tuned (h.tuned htuned cols rows) cols rows

/-- Bytes behind a new screen. -/
theorem Emitting.tunes_of (h : Emitting bytes { con with screen := scr } con')
    (husual : con.screen.Usual → scr.Usual)
    (htuned : ∀ {page d}, Tuned con.screen page d → ∀ cols rows,
      Tuned scr (f page) (d.feedAll cols rows bytes)) : Tunes f bytes con con' := by
  refine ⟨h.emitted, fun hsize => ?_, fun hd cols rows => ?_⟩
  · rw [h.screen]
    exact husual hsize
  · rw [h.screen]
    exact htuned hd cols rows

/-- Nothing emitted, and the screen as it was. -/
theorem Emitting.tunes (h : Emitting [] con con') : Tunes id [] con con' :=
  h.tunes_of id fun hd _ _ => hd

theorem printString_tunes (cols rows : ℕ) {string : List UInt16}
    (hplain : ∀ ch ∈ string, isPlain ch = true) :
    wp (printString ssh fw rounds string) (fun _ con' => ∃ bytes,
      Tunes (fun page => string.foldl (Page.char cols rows) page) bytes con con') anyStop con := by
  induction string generalizing con with
  | nil => exact ⟨[], (Emitting.refl con).tunes⟩
  | cons ch chs ih =>
      obtain ⟨hch, hchs⟩ := List.forall_mem_cons.mp hplain
      simp only [printString, wp_bind, wp_get]
      refine wp.imp (emit_emitting _) fun _ con₁ h₁ => ?_
      simp only [setScreen, wp_modify]
      have hprinted : Tunes (fun page => page.char cols rows ch) (printChar ch con.screen).2 con
          { con₁ with screen := (printChar ch con.screen).1 } := by
        refine ⟨h₁.emitted, fun hsize => ?_, fun hd _ _ => ?_⟩
        · exact ⟨⟨by rw [printChar_cols]; exact hsize.cols,
              by rw [printChar_rows]; exact hsize.rows⟩,
            by rw [printChar_cols]; exact hsize.minCols,
            by rw [printChar_rows]; exact hsize.minRows⟩
        · exact (hd.alike (alike_printChar hd.ground hch)).congr rfl rfl (printChar_mode ch _)
      refine wp.imp (ih hchs) fun _ con₂ h => ?_
      obtain ⟨bytes, h₂⟩ := h
      exact ⟨_, hprinted.trans h₂⟩

theorem alike_clearBytes (hground : d.terminal.parser = .ground) :
    d.Alike (d.feedAll cols rows clearBytes) := by
  obtain ⟨⟨cur, parser⟩, cells, pen, visible⟩ := d
  obtain rfl : parser = .ground := hground
  rw [display_clearBytes]
  exact ⟨rfl, rfl, rfl⟩

/-- Any place of the cursor. -/
theorem alike_cursorBytes (hground : d.terminal.parser = .ground) (column row : UInt64) :
    d.Alike (d.feedAll cols rows (cursorBytes column row)) := by
  obtain ⟨⟨cur, parser⟩, cells, pen, visible⟩ := d
  obtain rfl : parser = .ground := hground
  have hnum : ∀ (params : List ℕ) (v : ℕ), ∃ n,
      (Display.mk ⟨cur, .csi false (0 :: params)⟩ cells pen visible).feedAll cols rows (num v) =
        ⟨⟨cur, .csi false (n :: params)⟩, cells, pen, visible⟩ := by
    intro params v
    obtain ⟨n, hn, -⟩ := feedAll_num cols rows cur false params v
    refine ⟨n, ?_⟩
    rw [Display.feedAll_params rfl (num_lt v)]
    dsimp only
    rw [hn]
  obtain ⟨m, hrow⟩ := hnum [] (row + 1).toNat
  obtain ⟨n, hcolumn⟩ := hnum [m] (column + 1).toNat
  simp only [cursorBytes, Display.feedAll_append]
  rw [show (Display.mk ⟨cur, .ground⟩ cells pen visible).feedAll cols rows (ascii "\x1b[") =
    ⟨⟨cur, .csi false [0]⟩, cells, pen, visible⟩ from rfl, hrow,
    show (Display.mk ⟨cur, .csi false [m]⟩ cells pen visible).feedAll cols rows [byteOf ';'] =
      ⟨⟨cur, .csi false [0, m]⟩, cells, pen, visible⟩ from rfl, hcolumn]
  exact ⟨rfl, rfl, rfl⟩

theorem shimClearScreen_tunes :
    wp (shimClearScreen ssh fw rounds) (fun _ con' => Tunes Page.clear clearBytes con con')
      anyStop con :=
  wp.imp shimClearScreen_emitting fun _ _ h => h.tunes_of
    (fun hsize => ⟨⟨hsize.cols, hsize.rows⟩, hsize.minCols, hsize.minRows⟩)
    fun hd _ _ => (hd.alike (alike_clearBytes hd.ground)).congr rfl rfl ⟨rfl, rfl⟩

/-- A call keeps the display in tune.  Where it asks for the size of the window, that is one
the shim can have. -/
theorem runConsole_tunes (cols rows : ℕ) {call : ConsoleCall} (hplain : call.Plain)
    (hwindow : ∀ scr : Screen, (scr.resize (ssh.window con.host)).Usual) :
    wp (runConsole ssh fw rounds call) (fun _ con' => ∃ bytes,
      Tunes (fun page => page.call cols rows call) bytes con con') anyStop con := by
  have hflushed : ∀ b, InputInvariant ssh (FlushedOnly b) := fun _ => flushed_inputInvariant
  have hnothing : ∃ bytes, Tunes id bytes con con := ⟨[], (Emitting.refl con).tunes⟩
  -- the input side emits nothing, so that its calls leave the display alone
  have hsilent : ∀ {α : Type} {m : ShimM σ α}, (∀ b, Keeps (FlushedOnly b) m) →
      wp (onShim m) (fun _ con' => ∃ bytes, Tunes id bytes con con') anyStop con := by
    intro α m hm
    rw [wp_onShim]
    refine wp.imp (hm _ con.toShim rfl) fun _ t ht => ⟨[], Emitting.tunes ⟨rfl, ?_⟩⟩
    have hsame : flushedBytes t.log = flushedBytes con.log := ht
    rw [List.append_nil, EfiSshServer.emitted, EfiSshServer.emitted, hsame]
  cases call <;> simp only [runConsole, wp_bind, wp_pure]
  case outputString string =>
    simp only [shimOutputString, wp_bind, wp_pure]
    refine wp.imp pollSometimes_emitting fun _ con₁ h₁ => ?_
    refine wp.imp (printString_tunes cols rows hplain) fun _ con₂ h => ?_
    obtain ⟨bytes, h₂⟩ := h
    refine wp.imp flush_emitting fun _ con₃ h₃ => ?_
    exact ⟨_, (h₁.tunes.trans h₂).trans h₃.tunes⟩
  case testString => exact hnothing
  case queryMode modeNumber =>
    refine wp.ite (fun _ => hnothing) fun _ => ?_
    simp only [refreshSize, wp_bind, wp_modify, wp_get, wp_pure]
    refine ⟨[], (List.append_nil _).symm, fun _ => hwindow _, fun hd _ _ => ?_⟩
    exact hd.congr rfl rfl ⟨rfl, rfl⟩
  case setMode modeNumber =>
    refine wp.ite (fun hmode => ?_) fun hmode => ?_
    · simp only [Page.call, if_neg hmode]
      exact hnothing
    simp only [Page.call, if_pos (not_not.mp hmode), setScreen, refreshSize, wp_bind, wp_modify]
    refine wp.imp shimClearScreen_tunes fun _ con₁ h₁ => ⟨_, h₁.emitted, fun _ => ?_, fun hd => ?_⟩
    · exact h₁.usual (hwindow con.screen.zeroMode)
    · exact h₁.tuned (hd.congr rfl rfl ⟨rfl, rfl⟩)
  case setAttribute value =>
    refine wp.ite (fun hlarge => ?_) fun hsmall => ?_
    · simp only [Page.call, if_neg (UInt64.not_le.mpr hlarge)]
      exact hnothing
    simp only [Page.call, if_pos (UInt64.not_lt.mp hsmall), setScreen, wp_bind, wp_modify, wp_pure]
    refine wp.imp (emit_flush_emitting _) fun _ con₁ h₁ => wp.imp h₁ fun _ con₂ h₂ => ?_
    refine ⟨_, h₂.tunes_of (fun hsize => ⟨⟨hsize.cols, hsize.rows⟩, hsize.minCols, hsize.minRows⟩)
      fun {page d} hd cols rows => ?_⟩
    obtain ⟨⟨cur, parser⟩, cells, pen, shown⟩ := d
    obtain rfl : parser = .ground := hd.ground
    rw [display_attributeBytes]
    exact ⟨rfl, rfl, hd.cursorVisible, rfl, hd.visible⟩
  case clearScreen => exact wp.imp shimClearScreen_tunes fun _ _ h => ⟨_, h⟩
  case setCursorPosition column row =>
    have hkept : ∀ page : Page, (page.call cols rows (.setCursorPosition column row)).attr =
        page.attr ∧ (page.call cols rows (.setCursorPosition column row)).visible =
          page.visible := by
      intro page
      simp only [Page.call]
      split <;> exact ⟨rfl, rfl⟩
    refine wp.ite (fun _ => ?_) fun _ => ?_
    · -- a refused position moves neither the shim nor the page
      refine ⟨[], (List.append_nil _).symm, id, fun {page d} hd _ _ => ?_⟩
      exact hd.congr (hkept page).1 (hkept page).2 ⟨rfl, rfl⟩
    simp only [setScreen, wp_bind, wp_modify, wp_pure]
    refine wp.imp (emit_flush_emitting _) fun _ con₁ h₁ => wp.imp h₁ fun _ con₂ h₂ => ?_
    refine ⟨_, h₂.tunes_of (fun hsize => ⟨⟨hsize.cols, hsize.rows⟩, hsize.minCols, hsize.minRows⟩)
      fun {page d} hd cols rows => ?_⟩
    exact (hd.alike (alike_cursorBytes hd.ground column row)).congr (hkept page).1 (hkept page).2
      ⟨rfl, rfl⟩
  case enableCursor visible =>
    simp only [shimEnableCursor, setScreen, wp_bind, wp_modify, wp_pure]
    refine wp.imp (emit_flush_emitting _) fun _ con₁ h₁ => wp.imp h₁ fun _ con₂ h₂ => ?_
    refine ⟨_, h₂.tunes_of (fun hsize => ⟨⟨hsize.cols, hsize.rows⟩, hsize.minCols, hsize.minRows⟩)
      fun {page d} hd cols rows => ?_⟩
    obtain ⟨⟨cur, parser⟩, cells, pen, shown⟩ := d
    obtain rfl : parser = .ground := hd.ground
    rw [display_visibleBytes]
    exact ⟨rfl, hd.attr, rfl, hd.pen, rfl⟩
  case outReset =>
    simp only [shimOutReset, setScreen, wp_bind, wp_modify]
    refine wp.imp (emit_flush_emitting _) fun _ con₁ h₁ => wp.imp h₁ fun _ con₂ h₂ => ?_
    have hemitting : Emitting (ascii "\x1b[0m\x1b[?25h")
        { con with screen := con.screen.restored } con₂ := h₂
    -- the attribute and the visibility first, then the `ClearScreen`
    have hreset : Tunes (fun page => { page with attr := 0x07, visible := true })
        (ascii "\x1b[0m\x1b[?25h") con con₂ := by
      refine hemitting.tunes_of
        (fun hsize => ⟨⟨hsize.cols, hsize.rows⟩, hsize.minCols, hsize.minRows⟩)
        fun {page d} hd cols rows => ?_
      obtain ⟨⟨cur, parser⟩, cells, pen, shown⟩ := d
      obtain rfl : parser = .ground := hd.ground
      rw [display_resetBytes]
      have hpen : Pen.default = efiPen 0x07 := by decide
      exact ⟨rfl, rfl, rfl, hpen, rfl⟩
    exact wp.imp shimClearScreen_tunes fun _ con₃ h₃ => ⟨_, hreset.trans h₃⟩
  case inReset => exact hsilent fun b => (hflushed b).shimInReset
  case readKey => exact hsilent fun b => .bind (hflushed b).readCommon fun _ => .pure _
  case readKeyEx given =>
    exact hsilent fun b => .ite (fun _ => (hflushed b).readCommon) fun _ => .pure _
  case waitKey => exact hsilent fun b => (hflushed b).shimWaitKeyNotify
  case registerNotify kd fn wanted =>
    exact hsilent fun b => (hflushed b).shimRegisterNotify kd fn wanted
  case unregisterNotify handle =>
    exact hsilent fun b => (hflushed b).shimUnregisterNotify handle

/-! ## Runs -/

/-- A run of the shim with the calls made; the client may resize its window. -/
inductive PlainRuns (ssh : Ssh σ) (fw : Firmware σ) (s : Console σ) :
    List ConsoleCall → Console σ → Prop
  | none : PlainRuns ssh fw s [] s
  | call {t t' : Console σ} {calls : List ConsoleCall} (h : PlainRuns ssh fw s calls t)
      (rounds : ℕ) (call : ConsoleCall) (hplain : call.Plain)
      (hrun : runConsole ssh fw rounds call t = .ok ((), t')) :
      PlainRuns ssh fw s (calls ++ [call]) t'

variable {calls : List ConsoleCall} {J : Console σ → Prop}

theorem PlainRuns.invariant (hJ : ConsoleInvariant ssh fw J)
    (h : PlainRuns ssh fw con calls con') (hcon : J con) : J con' := by
  induction h with
  | none => exact hcon
  | call _ rounds call _ hrun ih => exact (hJ.runConsole call _ ih).ok hrun

theorem PlainRuns.tunes (hJ : ConsoleInvariant ssh fw J)
    (hwindow : ∀ {con}, J con → ∀ scr : Screen, (scr.resize (ssh.window con.host)).Usual)
    (cols rows : ℕ) (h : PlainRuns ssh fw con calls con') (hcon : J con) :
    ∃ bytes, Tunes (fun page => page.calls cols rows calls) bytes con con' := by
  induction h with
  | none => exact ⟨[], (Emitting.refl con).tunes⟩
  | call h rounds call hplain hrun ih =>
      obtain ⟨bytes, htunes⟩ := ih
      obtain ⟨bytes', hcall⟩ :=
        (runConsole_tunes cols rows hplain (hwindow (h.invariant hJ hcon))).ok hrun
      refine ⟨bytes ++ bytes', ?_⟩
      have hboth := htunes.trans hcall
      simpa only [Page.calls, List.foldl_append, List.foldl_cons, List.foldl_nil] using hboth

end EfiSshServer
