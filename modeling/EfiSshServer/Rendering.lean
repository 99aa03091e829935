import EfiSshServer.CursorModel
import EfiSshServer.ShimScenario

/-!
# The cursor model and the terminal

The Shell trusts the cursor position the shim reports, and the shim cannot ask the
terminal.  Here a reference terminal reads the bytes the shim emits: after every call
its cursor is where the shim says (`cursor_refines`).

A character is emitted in UTF-8 and moves both cursors alike (`feedAll_printChar`); a
control sequence either sets the position that the shim stores, or moves nothing.
-/

namespace EfiSshServer

open StateProgram DeferredWrap

variable {cols rows : ℕ} {cur : Cursor} {c : UInt16}

/-! ## Characters -/

/-- LF, CR, BS, TAB, and the characters of one column: no other controls, no surrogates. -/
def isPlain (c : UInt16) : Bool :=
  c = charLinefeed || c = charCarriageReturn || c = charBackspace || c = charTab ||
    (0x20 ≤ c && c ≤ 0x7E) || (0xA0 ≤ c && !(0xD800 ≤ c && c ≤ 0xDFFF))

/-- A continuation byte of a character. -/
theorem toNat_tail (bits : UInt16) :
    ((0x80 : UInt16) ||| (bits &&& 0x3F)).toUInt8.toNat = 0x80 + bits.toNat % 64 := by
  have hlow : bits.toNat &&& 63 = bits.toNat % 64 := Nat.and_two_pow_sub_one_eq_mod _ 6
  have hor : 128 ||| bits.toNat % 64 = 128 + bits.toNat % 64 :=
    (Nat.shiftLeft_add_eq_or_of_lt (Nat.mod_lt _ (by decide)) 2 (i := 6)).symm
  rw [UInt16.toNat_toUInt8, UInt16.toNat_or, UInt16.toNat_and]
  simp only [UInt16.reduceToNat, hlow, hor]
  omega

/-- The first byte of a character of two bytes. -/
theorem toNat_lead2 (hc : c.toNat < 0x800) :
    ((0xC0 : UInt16) ||| (c >>> 6)).toUInt8.toNat = 0xC0 + c.toNat / 64 := by
  have hhigh : (c >>> 6).toNat = c.toNat / 64 := by
    rw [UInt16.toNat_shiftRight]
    exact Nat.shiftRight_eq_div_pow _ 6
  have hor : 192 ||| c.toNat / 64 = 192 + c.toNat / 64 :=
    (Nat.shiftLeft_add_eq_or_of_lt (by omega) 3 (i := 6)).symm
  rw [UInt16.toNat_toUInt8, UInt16.toNat_or, hhigh]
  simp only [UInt16.reduceToNat, hor]
  omega

/-- The first byte of a character of three bytes. -/
theorem toNat_lead3 (c : UInt16) :
    ((0xE0 : UInt16) ||| (c >>> 12)).toUInt8.toNat = 0xE0 + c.toNat / 4096 := by
  have hlt := c.toNat_lt
  have hhigh : (c >>> 12).toNat = c.toNat / 4096 := by
    rw [UInt16.toNat_shiftRight]
    exact Nat.shiftRight_eq_div_pow _ 12
  have hor : 224 ||| c.toNat / 4096 = 224 + c.toNat / 4096 :=
    (Nat.shiftLeft_add_eq_or_of_lt (by omega) 14 (i := 4)).symm
  rw [UInt16.toNat_toUInt8, UInt16.toNat_or, hhigh]
  simp only [UInt16.reduceToNat, hor]
  omega

/-- The terminal prints what `EmitUtf8` encodes. -/
theorem feedAll_utf8 (hprint : Terminal.isPrintable c.toNat = true) :
    (Terminal.mk cur .ground).feedAll cols rows (utf8 c) = ⟨cur.print cols rows, .ground⟩ := by
  have hlt := c.toNat_lt
  have hchar : ∀ parser, Terminal.char cols rows c.toNat ⟨cur, parser⟩ =
      ⟨cur.print cols rows, .ground⟩ := by
    intro parser
    simp [Terminal.char, hprint]
  simp only [Terminal.isPrintable, Bool.or_eq_true, Bool.and_eq_true, decide_eq_true_eq] at hprint
  simp only [utf8]
  split
  · next hone =>
      have hone : c.toNat < 0x80 := UInt16.lt_iff_toNat_lt.mp hone
      have hbyte : c.toUInt8.toNat = c.toNat := by
        rw [UInt16.toNat_toUInt8]
        omega
      rw [Terminal.feedAll_cons, Terminal.feed_char (by omega) (by omega), hbyte, hchar,
        Terminal.feedAll_nil]
  split
  · next htwo =>
      have htwo : c.toNat < 0x800 := UInt16.lt_iff_toNat_lt.mp htwo
      rw [Terminal.feedAll_cons, Terminal.feed_lead2 (toNat_lead2 htwo) (by omega),
        Terminal.feedAll_cons, Terminal.feed_tail (toNat_tail c) (by omega), if_pos (by decide),
        show c.toNat / 64 * 64 + c.toNat % 64 = c.toNat by omega, hchar, Terminal.feedAll_nil]
  · have hmiddle : (c >>> 6).toNat = c.toNat / 64 := by
      rw [UInt16.toNat_shiftRight]
      exact Nat.shiftRight_eq_div_pow _ 6
    rw [Terminal.feedAll_cons, Terminal.feed_lead3 (toNat_lead3 c) (by omega),
      Terminal.feedAll_cons, Terminal.feed_tail (toNat_tail (c >>> 6)) (by omega),
      if_neg (by decide), Terminal.feedAll_cons, Terminal.feed_tail (toNat_tail c) (by omega),
      if_pos (by decide), hmiddle,
      show (c.toNat / 4096 * 64 + c.toNat / 64 % 64) * 64 + c.toNat % 64 = c.toNat by omega, hchar,
      Terminal.feedAll_nil]

/-! ## Control sequences -/

/-- The digits of `EmitNum`, lowest first, and the number they stand for. -/
theorem numDigits_eq (slots v : ℕ) : ∃ ds : List ℕ,
    numDigits slots v = ds.map (fun d => UInt8.ofNat (0x30 + d)) ∧ (∀ d ∈ ds, d < 10) ∧
      (v < 10 ^ slots → ds.foldr (fun d n => n * 10 + d) 0 = v) := by
  induction slots generalizing v with
  | zero => exact ⟨[], rfl, by simp, fun hv => by simp at hv ⊢; omega⟩
  | succ slots ih =>
      by_cases hlast : v / 10 = 0
      · refine ⟨[v % 10], ?_, by simp; omega, fun _ => by simp; omega⟩
        rw [numDigits, if_pos hlast]
        rfl
      · obtain ⟨ds, heq, hdigits, hvalue⟩ := ih (v / 10)
        refine ⟨v % 10 :: ds, ?_, ?_, fun hv => ?_⟩
        · rw [numDigits, if_neg hlast, heq]
          rfl
        · exact List.forall_mem_cons.mpr ⟨by omega, hdigits⟩
        · rw [List.foldr_cons, hvalue (by rw [pow_succ] at hv; omega)]
          omega

/-- A number in a control sequence. -/
theorem feedAll_num (cols rows : ℕ) (cur : Cursor) (priv : Bool) (params : List ℕ) (v : ℕ) : ∃ n,
    (Terminal.mk cur (.csi priv (0 :: params))).feedAll cols rows (num v) =
      ⟨cur, .csi priv (n :: params)⟩ ∧ (v < 10 ^ numBuf → n = v) := by
  obtain ⟨ds, heq, hdigits, hvalue⟩ := numDigits_eq numBuf v
  refine ⟨Terminal.numeral 0 ds.reverse, ?_, fun hv => ?_⟩
  · rw [num, heq, ← List.map_reverse]
    exact Terminal.feedAll_digits ds.reverse fun d hd => hdigits d (List.mem_reverse.mp hd)
  · rw [Terminal.numeral, List.foldl_reverse, ← hvalue hv]

theorem feedAll_clearBytes (cur : Cursor) :
    (Terminal.mk cur .ground).feedAll cols rows clearBytes = ⟨⟨0, 0, false⟩, .ground⟩ := by
  have hhome : Cursor.moveTo cols rows 0 0 = ⟨0, 0, false⟩ := by
    simp [Cursor.moveTo, Cursor.clamp]
  rw [← hhome]
  rfl

theorem feedAll_visibleBytes (visible : Bool) (cur : Cursor) :
    (Terminal.mk cur .ground).feedAll cols rows (visibleBytes visible) = ⟨cur, .ground⟩ := by
  cases visible <;> rfl

theorem feedAll_attributeBytes (value : UInt64) (cur : Cursor) :
    (Terminal.mk cur .ground).feedAll cols rows (attributeBytes value) = ⟨cur, .ground⟩ := by
  have hstart : (Terminal.mk cur .ground).feedAll cols rows (ascii "\x1b[0;") =
      ⟨cur, .csi false [0, 0]⟩ := rfl
  simp only [attributeBytes, Terminal.feedAll_append]
  rw [hstart]
  obtain ⟨m, hfg, -⟩ := feedAll_num cols rows cur false [0]
    ((if value &&& 0x08 ≠ 0 then 90 else 30) + efiToAnsi.getD (value &&& 0x07).toNat 0)
  obtain ⟨n, hbg, -⟩ := feedAll_num cols rows cur false [m, 0]
    (40 + efiToAnsi.getD ((value >>> 4) &&& 0x07).toNat 0)
  have hnext : (Terminal.mk cur (.csi false [m, 0])).feedAll cols rows [byteOf ';'] =
      ⟨cur, .csi false [0, m, 0]⟩ := rfl
  have hend : (Terminal.mk cur (.csi false [n, m, 0])).feedAll cols rows [byteOf 'm'] =
      ⟨cur, .ground⟩ := rfl
  rw [hfg, hnext, hbg, hend]

/-- A position the shim accepts is the position the terminal goes to. -/
theorem feedAll_cursorBytes {column row : UInt64} (hcol : column.toNat < cols)
    (hrow : row.toNat < rows) (hcols : cols < 1000) (hrows : rows < 1000) (cur : Cursor) :
    (Terminal.mk cur .ground).feedAll cols rows (cursorBytes column row) =
      ⟨⟨column.toNat, row.toNat, false⟩, .ground⟩ := by
  have hsucc : ∀ x : UInt64, x.toNat < 1000 → (x + 1).toNat = x.toNat + 1 := by
    intro x hx
    rw [UInt64.toNat_add, Nat.mod_eq_of_lt (by simp; omega)]
    rfl
  have hstart : (Terminal.mk cur .ground).feedAll cols rows (ascii "\x1b[") =
      ⟨cur, .csi false [0]⟩ := rfl
  obtain ⟨m, hrowNum, hm⟩ := feedAll_num cols rows cur false [] (row + 1).toNat
  obtain ⟨n, hcolNum, hn⟩ := feedAll_num cols rows cur false [m] (column + 1).toNat
  have hbuf : 1000 ≤ 10 ^ numBuf := by decide
  rw [hsucc row (by omega)] at hm
  rw [hsucc column (by omega)] at hn
  have hnext : (Terminal.mk cur (.csi false [m])).feedAll cols rows [byteOf ';'] =
      ⟨cur, .csi false [0, m]⟩ := rfl
  have hend : (Terminal.mk cur (.csi false [n, m])).feedAll cols rows [byteOf 'H'] =
      ⟨.moveTo cols rows m n, .ground⟩ := rfl
  simp only [cursorBytes, Terminal.feedAll_append]
  rw [hstart, hrowNum, hnext, hcolNum, hend, hm (by omega), hn (by omega),
    Cursor.moveTo_succ hcol hrow]

/-! ## What a character emits -/

/-- The shim and the terminal agree on the cursor. -/
structure Mirrors (scr : Screen) (t : Terminal) : Prop where
  ground : t.parser = .ground
  shows : Shows scr t.cursor
  inside : t.cursor.Inside scr.cols.toNat scr.rows.toNat

/-- A screen size that `RefreshSize` can set. -/
structure Screen.Usual (scr : Screen) : Prop extends scr.Sized where
  minCols : 20 ≤ scr.cols.toNat
  minRows : 5 ≤ scr.rows.toNat

theorem Inside.charMove (h : cur.Inside cols rows) :
    (charMove cols rows c cur).Inside cols rows := by
  unfold EfiSshServer.charMove
  split
  · exact h.carriageReturn.lineFeed.inside rfl
  split
  · exact h.carriageReturn.inside rfl
  split
  · exact h.backspace.inside rfl
  split
  · exact h.tab.inside rfl
  split
  · exact h
  · exact h.print_inside

/-- The other characters the Shell prints are printable. -/
theorem isPrintable_of_isPlain (hplain : isPlain c = true) (hlf : c ≠ charLinefeed)
    (hcr : c ≠ charCarriageReturn) (hbs : c ≠ charBackspace) (htab : c ≠ charTab) :
    Terminal.isPrintable c.toNat = true := by
  simp only [isPlain, Bool.or_eq_true, Bool.and_eq_true, decide_eq_true_eq, hlf, hcr, hbs, htab,
    false_or, UInt16.le_iff_toNat_le] at hplain
  simp only [Terminal.isPrintable, Bool.or_eq_true, Bool.and_eq_true, decide_eq_true_eq]
  simp only [UInt16.reduceToNat] at hplain
  omega

/-- A backspace in the first column is no move. -/
theorem backspace_first (h : cur.Inside cols rows) (hwide : 1 < cols) (hcol : cur.col = 0) :
    cur.backspace = cur := by
  have hpending : cur.pending = false := by
    by_contra hwrap
    have hlast := h.last (by simpa using hwrap)
    omega
  obtain ⟨col, row, pending⟩ := cur
  obtain rfl : col = 0 := hcol
  obtain rfl : pending = false := hpending
  rfl

theorem feedAll_printChar {scr : Screen} (hshows : Shows scr cur)
    (hin : cur.Inside scr.cols.toNat scr.rows.toNat) (hsize : scr.Usual)
    (hplain : isPlain c = true) :
    (Terminal.mk cur .ground).feedAll scr.cols.toNat scr.rows.toNat (printChar c scr).2 =
      ⟨charMove scr.cols.toNat scr.rows.toNat c cur, .ground⟩ := by
  have hcol : cur.col < 1000 := lt_trans hin.col hsize.cols
  have hwide := hsize.minCols
  unfold EfiSshServer.printChar EfiSshServer.charMove
  split
  · rfl
  split
  · rfl
  split
  · rw [hshows.col]
    by_cases hpos : 0 < cur.col
    · rw [if_pos ((ofNat_pos hcol).mpr hpos)]
      rfl
    · rw [if_neg fun hgt => hpos ((ofNat_pos hcol).mp hgt),
        backspace_first hin (by omega) (by omega)]
      rfl
  split
  · rfl
  · next hlf hcr hbs htab =>
      have hprint := isPrintable_of_isPlain hplain hlf hcr hbs htab
      have hctl : ¬ c < 0x20 := by
        simp only [Terminal.isPrintable, Bool.or_eq_true, Bool.and_eq_true,
          decide_eq_true_eq] at hprint
        rw [UInt16.lt_iff_toNat_lt]
        simp only [UInt16.reduceToNat]
        omega
      rw [if_neg hctl, if_neg hctl]
      exact feedAll_utf8 hprint

/-- A character moves the cursor of the shim and of the terminal alike. -/
theorem Mirrors.printChar {scr : Screen} {t : Terminal} (h : Mirrors scr t) (hsize : scr.Usual)
    (hplain : isPlain c = true) :
    Mirrors (printChar c scr).1
      (t.feedAll scr.cols.toNat scr.rows.toNat (printChar c scr).2) := by
  obtain ⟨cur, parser⟩ := t
  obtain ⟨rfl, hshows, hin⟩ := h
  rw [feedAll_printChar hshows hin hsize hplain]
  refine ⟨rfl, hshows.printChar hsize.toSized hin.toOnScreen c, ?_⟩
  rw [printChar_cols, printChar_rows]
  exact Inside.charMove hin

/-! ## The calls -/

section Calls

variable {σ : Type} {ssh : Ssh σ} {fw : Firmware σ} {rounds : ℕ} {con con' con'' : Console σ}

/-- The call emitted `bytes`, and a terminal that agreed with the shim before agrees again
once it has read them. -/
structure Rendered (bytes : Bytes) (con con' : Console σ) : Prop where
  emitted : emitted con' = emitted con ++ bytes
  cols : con'.screen.cols = con.screen.cols
  rows : con'.screen.rows = con.screen.rows
  mirrors : ∀ t, Mirrors con.screen t →
    Mirrors con'.screen (t.feedAll con.screen.cols.toNat con.screen.rows.toNat bytes)

theorem Rendered.refl (con : Console σ) : Rendered [] con con :=
  ⟨(List.append_nil _).symm, rfl, rfl, fun _ h => h⟩

theorem Rendered.trans {xs ys : Bytes} (h : Rendered xs con con') (h' : Rendered ys con' con'') :
    Rendered (xs ++ ys) con con'' where
  emitted := by rw [h'.emitted, h.emitted, List.append_assoc]
  cols := h'.cols.trans h.cols
  rows := h'.rows.trans h.rows
  mirrors t ht := by
    have hagain := h'.mirrors _ (h.mirrors t ht)
    rw [h.cols, h.rows] at hagain
    rwa [Terminal.feedAll_append]

theorem Rendered.usual {bytes : Bytes} (h : Rendered bytes con con') (hsize : con.screen.Usual) :
    con'.screen.Usual := by
  refine ⟨⟨?_, ?_⟩, ?_, ?_⟩
  · rw [h.cols]; exact hsize.cols
  · rw [h.rows]; exact hsize.rows
  · rw [h.cols]; exact hsize.minCols
  · rw [h.rows]; exact hsize.minRows

/-- Nothing emitted, and the screen as it was. -/
theorem Emitting.rendered (h : Emitting [] con con') : Rendered [] con con' := by
  refine ⟨h.emitted, by rw [h.screen], by rw [h.screen], fun t ht => ?_⟩
  rw [h.screen]
  exact ht

/-- Bytes behind a new screen, which a terminal follows. -/
theorem Emitting.rendered_of {bytes : Bytes} {scr : Screen}
    (h : Emitting bytes { con with screen := scr } con') (hcols : scr.cols = con.screen.cols)
    (hrows : scr.rows = con.screen.rows)
    (hmirrors : ∀ t, Mirrors con.screen t →
      Mirrors scr (t.feedAll con.screen.cols.toNat con.screen.rows.toNat bytes)) :
    Rendered bytes con con' where
  emitted := h.emitted
  cols := by rw [h.screen]; exact hcols
  rows := by rw [h.screen]; exact hrows
  mirrors t ht := by
    rw [h.screen]
    exact hmirrors t ht

/-- The shape of the calls that set the screen and emit a sequence. -/
theorem emit_flush_emitting (bytes : Bytes) :
    wp (emit ssh fw rounds bytes)
      (fun _ => wp (flush ssh fw rounds) (fun _ => Emitting bytes con) anyStop) anyStop con := by
  refine wp.imp (emit_emitting bytes) fun _ con₁ h₁ => ?_
  refine wp.imp flush_emitting fun _ con₂ h₂ => ?_
  have h := h₁.trans h₂
  rwa [List.append_nil] at h

/-- Clearing brings every terminal that is between two sequences in line. -/
theorem shimClearScreen_emitting :
    wp (shimClearScreen ssh fw rounds) (fun _ => Emitting clearBytes
      { con with screen := ((con.screen.setColumn 0).setRow 0).setWrap false }) anyStop con := by
  simp only [shimClearScreen, wp_bind, wp_pure]
  refine wp.imp (emit_emitting _) fun _ con₁ h₁ => ?_
  simp only [setScreen, wp_modify]
  refine wp.imp flush_emitting fun _ con₂ h₂ => ⟨?_, ?_⟩
  · rw [h₂.screen]
    dsimp only
    rw [h₁.screen]
  · rw [h₂.emitted, List.append_nil]
    exact h₁.emitted

theorem mirrors_clear {scr : Screen} {t : Terminal} (hground : t.parser = .ground)
    (hsize : scr.Usual) :
    Mirrors (((scr.setColumn 0).setRow 0).setWrap false)
      (t.feedAll scr.cols.toNat scr.rows.toNat clearBytes) := by
  obtain ⟨cur, parser⟩ := t
  obtain rfl : parser = .ground := hground
  have hcols := hsize.minCols
  have hrows := hsize.minRows
  rw [feedAll_clearBytes]
  refine ⟨rfl, shows_home scr, Cursor.OnScreen.inside ⟨?_, ?_⟩ rfl⟩
  · exact Nat.lt_of_lt_of_le (by decide) hcols
  · exact Nat.lt_of_lt_of_le (by decide) hrows

theorem printString_rendered {string : List UInt16} (hplain : ∀ ch ∈ string, isPlain ch = true)
    (hsize : con.screen.Usual) :
    wp (printString ssh fw rounds string) (fun _ con' => ∃ bytes, Rendered bytes con con')
      anyStop con := by
  induction string generalizing con with
  | nil => exact ⟨[], .refl con⟩
  | cons ch chs ih =>
      obtain ⟨hch, hchs⟩ := List.forall_mem_cons.mp hplain
      simp only [printString, wp_bind, wp_get]
      refine wp.imp (emit_emitting _) fun _ con₁ h₁ => ?_
      simp only [setScreen, wp_modify]
      have hrendered : Rendered (printChar ch con.screen).2 con
          { con₁ with screen := (printChar ch con.screen).1 } :=
        ⟨h₁.emitted, printChar_cols ch _, printChar_rows ch _, fun t ht => ht.printChar hsize hch⟩
      refine wp.imp (ih hchs (hrendered.usual hsize)) fun _ con₂ h => ?_
      obtain ⟨bytes, h₂⟩ := h
      exact ⟨_, hrendered.trans h₂⟩

/-- The calls that draw, with strings of plain characters. -/
def ConsoleCall.Draws : ConsoleCall → Prop
  | .outputString string => ∀ ch ∈ string, isPlain ch = true
  | .clearScreen | .setCursorPosition .. | .setAttribute _ | .enableCursor _ => True
  | _ => False

/-- Every drawing call is followed by the terminal. -/
theorem runConsole_rendered {call : ConsoleCall} (hdraws : call.Draws)
    (hsize : con.screen.Usual) :
    wp (runConsole ssh fw rounds call) (fun _ con' => ∃ bytes, Rendered bytes con con')
      anyStop con := by
  cases call <;> simp only [runConsole, wp_bind, wp_pure]
  case outputString string =>
    simp only [shimOutputString, wp_bind, wp_pure]
    refine wp.imp pollSometimes_emitting fun _ con₁ h₁ => ?_
    have hrendered := h₁.rendered
    refine wp.imp (printString_rendered hdraws (hrendered.usual hsize)) fun _ con₂ h => ?_
    obtain ⟨bytes, h₂⟩ := h
    refine wp.imp flush_emitting fun _ con₃ h₃ => ?_
    exact ⟨_, (hrendered.trans h₂).trans h₃.rendered⟩
  case clearScreen =>
    refine wp.imp shimClearScreen_emitting fun _ con₁ h₁ => ⟨_, h₁.rendered_of rfl rfl ?_⟩
    exact fun t ht => mirrors_clear ht.ground hsize
  case setAttribute value =>
    refine wp.ite (fun _ => ⟨[], .refl con⟩) fun _ => ?_
    simp only [setScreen, wp_bind, wp_modify, wp_pure]
    refine wp.imp (emit_flush_emitting _) fun _ con₁ h₁ => wp.imp h₁ fun _ con₂ h₂ => ?_
    refine ⟨_, h₂.rendered_of rfl rfl fun t ht => ?_⟩
    obtain ⟨cur, parser⟩ := t
    obtain ⟨rfl, hshows, hin⟩ := ht
    rw [feedAll_attributeBytes]
    exact ⟨rfl, ⟨hshows.col, hshows.row, hshows.pending⟩, hin⟩
  case setCursorPosition column row =>
    refine wp.ite (fun _ => ⟨[], .refl con⟩) fun haccept => ?_
    simp only [not_or, ge_iff_le, UInt64.not_le] at haccept
    simp only [setScreen, wp_bind, wp_modify, wp_pure]
    refine wp.imp (emit_flush_emitting _) fun _ con₁ h₁ => wp.imp h₁ fun _ con₂ h₂ => ?_
    refine ⟨_, h₂.rendered_of rfl rfl fun t ht => ?_⟩
    obtain ⟨cur, parser⟩ := t
    obtain ⟨rfl, -, -⟩ := ht
    obtain ⟨hshows, hholds⟩ := shows_position hsize.toSized haccept.1 haccept.2
    rw [feedAll_cursorBytes hholds.col hholds.row hsize.cols hsize.rows]
    exact ⟨rfl, hshows, hholds.inside rfl⟩
  case enableCursor visible =>
    simp only [shimEnableCursor, setScreen, wp_bind, wp_modify, wp_pure]
    refine wp.imp (emit_flush_emitting _) fun _ con₁ h₁ => wp.imp h₁ fun _ con₂ h₂ => ?_
    refine ⟨_, h₂.rendered_of rfl rfl fun t ht => ?_⟩
    obtain ⟨cur, parser⟩ := t
    obtain ⟨rfl, hshows, hin⟩ := ht
    rw [feedAll_visibleBytes]
    exact ⟨rfl, ⟨hshows.col, hshows.row, hshows.pending⟩, hin⟩
  all_goals exact hdraws.elim

/-- Sequences of drawing calls. -/
inductive DrawRuns (ssh : Ssh σ) (fw : Firmware σ) (s : Console σ) : Console σ → Prop
  | none : DrawRuns ssh fw s s
  | call {t t' : Console σ} (h : DrawRuns ssh fw s t) (rounds : ℕ) (call : ConsoleCall)
      (hdraws : call.Draws) (hrun : runConsole ssh fw rounds call t = .ok ((), t')) :
      DrawRuns ssh fw s t'

theorem DrawRuns.rendered (h : DrawRuns ssh fw con con') (hsize : con.screen.Usual) :
    ∃ bytes, Rendered bytes con con' := by
  induction h with
  | none => exact ⟨[], .refl con⟩
  | call _ rounds call hdraws hrun ih =>
      obtain ⟨bytes, hrendered⟩ := ih
      obtain ⟨bytes', hrendered'⟩ :=
        (runConsole_rendered hdraws (hrendered.usual hsize)).ok hrun
      exact ⟨_, hrendered.trans hrendered'⟩

/-- From a `ClearScreen` on, the cursor fields of the shim are those of a terminal of the
same size that reads the bytes emitted, after every sequence of drawing calls. -/
theorem cursor_refines (hcols : 20 ≤ con.screen.cols.toNat ∧ con.screen.cols.toNat < 1000)
    (hrows : 5 ≤ con.screen.rows.toNat ∧ con.screen.rows.toNat < 1000)
    (hclear : runConsole ssh fw rounds .clearScreen con = .ok ((), con'))
    (hruns : DrawRuns ssh fw con' con'') (term : Terminal) (hground : term.parser = .ground) :
    con''.screen.cols = con.screen.cols ∧ con''.screen.rows = con.screen.rows ∧
      ∃ bytes, emitted con'' = emitted con ++ bytes ∧ Shows con''.screen
        (term.feedAll con.screen.cols.toNat con.screen.rows.toNat bytes).cursor := by
  have hsize : con.screen.Usual := ⟨⟨hcols.2, hrows.2⟩, hcols.1, hrows.1⟩
  have hfirst : wp (runConsole ssh fw rounds .clearScreen) (fun _ => Emitting clearBytes
      { con with screen := ((con.screen.setColumn 0).setRow 0).setWrap false }) anyStop con := by
    simp only [runConsole, wp_bind, wp_pure]
    exact shimClearScreen_emitting
  have hcleared := hfirst.ok hclear
  have hscreen := hcleared.screen
  have hmirrors : Mirrors con'.screen
      (term.feedAll con.screen.cols.toNat con.screen.rows.toNat clearBytes) := by
    rw [hscreen]
    exact mirrors_clear hground hsize
  have hsize' : con'.screen.Usual := by
    rw [hscreen]
    exact ⟨⟨hcols.2, hrows.2⟩, hcols.1, hrows.1⟩
  obtain ⟨bytes, hrendered⟩ := hruns.rendered hsize'
  refine ⟨?_, ?_, clearBytes ++ bytes, ?_, ?_⟩
  · rw [hrendered.cols, hscreen]
    rfl
  · rw [hrendered.rows, hscreen]
    rfl
  · rw [hrendered.emitted, hcleared.emitted, List.append_assoc]
    rfl
  · rw [Terminal.feedAll_append]
    have hagain := hrendered.mirrors _ hmirrors
    rw [hscreen] at hagain
    exact hagain.shows

/-- A shim of 80 columns that clears the screen of a fresh terminal and then prints 81
letters, so that both cursors are on the second line. -/
theorem cursor_refines_clear : ∃ (con con' con'' : Console Server),
    runConsole (serverSsh (plainEnv fun _ _ => true)) quietFirmware scenarioRounds .clearScreen
      con = .ok ((), con') ∧
    runConsole (serverSsh (plainEnv fun _ _ => true)) quietFirmware scenarioRounds
      (.outputString (List.replicate 81 97)) con' = .ok ((), con'') ∧
    con''.screen.mode.cursorRow = 1 ∧
    con''.screen.cols = con.screen.cols ∧ con''.screen.rows = con.screen.rows ∧
    ∃ bytes, emitted con'' = emitted con ++ bytes ∧ Shows con''.screen
      ((Terminal.mk ⟨0, 0, false⟩ .ground).feedAll con.screen.cols.toNat con.screen.rows.toNat
        bytes).cursor := by
  obtain ⟨host, con, -, -, -, hcols, hrows, hruns⟩ := exists_shim (E := plainEnv fun _ _ => true)
    (P := fun con => (20 ≤ con.screen.cols.toNat ∧ con.screen.cols.toNat < 1000) ∧
      (5 ≤ con.screen.rows.toNat ∧ con.screen.rows.toNat < 1000) ∧
      (runConsole (serverSsh (plainEnv fun _ _ => true)) quietFirmware scenarioRounds .clearScreen
        con).toOption.any (fun out => decide ((runConsole (serverSsh (plainEnv fun _ _ => true))
          quietFirmware scenarioRounds (.outputString (List.replicate 81 97))
          out.2).toOption.any (fun out' => decide (out'.2.screen.mode.cursorRow = 1)) = true))
        = true) [.outputString [108, 115]]
    [.data (clientShell "root" "secret")] (by decide +kernel)
  obtain ⟨⟨_, con'⟩, hclear, hruns⟩ := exists_ok hruns
  obtain ⟨⟨_, con''⟩, hprint, hrow⟩ := exists_ok hruns
  have hdraws : (ConsoleCall.outputString (List.replicate 81 97)).Draws := by
    intro ch hch
    rw [List.eq_of_mem_replicate hch]
    rfl
  exact ⟨con, con', con'', hclear, hprint, hrow, cursor_refines hcols hrows hclear
    (.call .none scenarioRounds (.outputString (List.replicate 81 97)) hdraws hprint) _ rfl⟩

end Calls

end EfiSshServer
