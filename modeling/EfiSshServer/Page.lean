import EfiSshServer.Lib.Display
import EfiSshServer.ConsoleInvariant
import EfiSshServer.Rendering

/-!
# What the remote terminal shows

A UEFI text console is a page of characters: a string is written at the cursor in the colours
of the current attribute, a character behind the last column goes to the next row, and below
the last row the page scrolls.  `Page` is that console, with no bytes in it.

The terminal of the client reads only bytes.  `display_refines` says that from a
`ClearScreen` on it shows the page, cell by cell and in the same colours, with the cursor in
the same place, after every sequence of calls that leaves the size of the screen alone.

* `Pictures` relates the shim, the page and the display.
* `Drawn` is what a call does to all three; a call that reads keys draws nothing.
-/

namespace EfiSshServer

open StateProgram DeferredWrap

variable {cols rows : ℕ} {cur : Cursor} {c : UInt16} {scr : Screen}

/-! ## The page -/

/-- The colours of an attribute in their order: the last three bits are red, green and blue
from the top. -/
def efiColour : ℕ → Colour
  | 0 => .black
  | 1 => .blue
  | 2 => .green
  | 3 => .cyan
  | 4 => .red
  | 5 => .magenta
  | 6 => .yellow
  | _ => .white

/-- The colours of an attribute: a foreground with its brightness, and a background. -/
def efiPen (attr : UInt64) : Pen :=
  ⟨efiColour (attr &&& 0x07).toNat, attr &&& 0x08 ≠ 0,
    efiColour ((attr >>> 4) &&& 0x07).toNat⟩

structure Page where
  cells : Cells
  cursor : Cursor
  attr : UInt64
  visible : Bool

namespace Page

variable (cols rows : ℕ)

def char (p : Page) (c : UInt16) : Page :=
  { p with
    cells :=
      if c = charLinefeed then p.cells.down rows (efiPen p.attr) p.cursor
      else if c < 0x20 then p.cells
      else p.cells.print rows (efiPen p.attr) p.cursor c.toNat
    cursor := charMove cols rows c p.cursor }

/-- An empty page in the colours of the attribute, with the cursor in the upper left. -/
def clear (p : Page) : Page :=
  { p with cells := .cleared (efiPen p.attr), cursor := ⟨0, 0, false⟩ }

/-- What the calls do to the page.  Those of the input side do nothing. -/
def call (p : Page) : ConsoleCall → Page
  | .outputString string => string.foldl (Page.char cols rows) p
  | .clearScreen => p.clear
  | .setMode modeNumber => if modeNumber = 0 then p.clear else p
  | .setAttribute value => if value ≤ 0x7F then { p with attr := value } else p
  | .setCursorPosition column row =>
      if column.toNat < cols ∧ row.toNat < rows then
        { p with cursor := ⟨column.toNat, row.toNat, false⟩ }
      else p
  | .enableCursor visible => { p with visible := visible }
  | .outReset => { p with attr := 0x07, visible := true : Page }.clear
  | _ => p

end Page

/-! ## The relation -/

/-- The shim, the page and the display agree. -/
structure Pictures (scr : Screen) (page : Page) (d : Display) : Prop where
  mirrors : Mirrors scr d.terminal
  attr : scr.mode.textAttribute = page.attr.toUInt32.toInt32
  cursorVisible : scr.mode.cursorVisible = page.visible
  cells : d.cells = page.cells
  cursor : d.cursor = page.cursor
  pen : d.pen = efiPen page.attr
  visible : d.visible = page.visible

/-! ## Characters -/

theorem feed_eq {d : Display} {b : UInt8} {e : Effect} (h : d.terminal.effect b = e) :
    d.feed cols rows b = { d.act rows e with terminal := d.terminal.feed cols rows b } := by
  rw [Display.feed, h]

/-- A continuation byte that is not the last asks for nothing, and the last for the
character. -/
theorem effect_tail {b : UInt8} {need acc lo : ℕ} (hb : b.toNat = 0x80 + lo) (hlo : lo < 64) :
    (Terminal.mk cur (.utf8 need acc)).effect b =
      if need ≤ 1 then .char (acc * 64 + lo) else .none := by
  simp only [Terminal.effect, hb]
  rw [if_pos (by omega), Nat.add_sub_cancel_left]

theorem effect_lead {b : UInt8} (hb : 0xC0 ≤ b.toNat) :
    (Terminal.mk cur .ground).effect b = .none := by
  simp only [Terminal.effect, Terminal.groundEffect]
  rw [if_neg (by omega), if_neg (by omega)]

theorem effect_ascii {b : UInt8} (hlow : 0x20 ≤ b.toNat) (hhigh : b.toNat < 0x80) :
    (Terminal.mk cur .ground).effect b = .char b.toNat := by
  simp only [Terminal.effect, Terminal.groundEffect]
  rw [if_neg (by omega), if_pos hhigh]

/-- The encoding of a character asks for that character once, at its last byte. -/
theorem display_utf8 {cells : Cells} {pen : Pen} {visible : Bool}
    (hprint : Terminal.isPrintable c.toNat = true) :
    (Display.mk ⟨cur, .ground⟩ cells pen visible).feedAll cols rows (utf8 c) =
      ⟨⟨cur.print cols rows, .ground⟩, cells.print rows pen cur c.toNat, pen, visible⟩ := by
  have hlt := c.toNat_lt
  -- the cursor is that of the terminal, and what is left are the cells
  have hterminal : (Terminal.mk cur .ground).feedAll cols rows (utf8 c) =
      ⟨cur.print cols rows, .ground⟩ := feedAll_utf8 hprint
  rw [← Display.feedAll_terminal (d := ⟨⟨cur, .ground⟩, cells, pen, visible⟩)] at hterminal
  have hact : ∀ t : Terminal, t.cursor = cur →
      (Display.mk t cells pen visible).act rows (.char c.toNat) =
        ⟨t, cells.print rows pen cur c.toNat, pen, visible⟩ := by
    intro t ht
    rw [Display.act, if_pos hprint, Display.cursor, ht]
  simp only [Terminal.isPrintable, Bool.or_eq_true, Bool.and_eq_true, decide_eq_true_eq] at hprint
  rw [← hterminal]
  simp only [utf8]
  split
  · next hone =>
      have hone : c.toNat < 0x80 := UInt16.lt_iff_toNat_lt.mp hone
      have hbyte : c.toUInt8.toNat = c.toNat := by
        rw [UInt16.toNat_toUInt8]
        omega
      rw [Display.feedAll_cons, feed_eq (effect_ascii (by omega) (by omega)), hbyte, hact _ rfl]
      rfl
  split
  · next htwo =>
      have htwo : c.toNat < 0x800 := UInt16.lt_iff_toNat_lt.mp htwo
      have hlead : (Terminal.mk cur .ground).effect ((0xC0 : UInt16) ||| (c >>> 6)).toUInt8 =
          .none := effect_lead (by rw [toNat_lead2 htwo]; omega)
      rw [Display.feedAll_cons, Display.feed_of_none hlead,
        Terminal.feed_lead2 (toNat_lead2 htwo) (by omega), Display.feedAll_cons,
        feed_eq (effect_tail (toNat_tail c) (by omega)), if_pos (by decide),
        show c.toNat / 64 * 64 + c.toNat % 64 = c.toNat by omega, hact _ rfl]
      rfl
  · have hmiddle : (c >>> 6).toNat = c.toNat / 64 := by
      rw [UInt16.toNat_shiftRight]
      exact Nat.shiftRight_eq_div_pow _ 6
    have hlead : (Terminal.mk cur .ground).effect ((0xE0 : UInt16) ||| (c >>> 12)).toUInt8 =
        .none := effect_lead (by rw [toNat_lead3 c]; omega)
    have hnone : (Terminal.mk cur (.utf8 2 (c.toNat / 4096))).effect
        ((0x80 : UInt16) ||| ((c >>> 6) &&& 0x3F)).toUInt8 = .none := by
      rw [effect_tail (toNat_tail (c >>> 6)) (by omega), if_neg (by decide)]
    rw [Display.feedAll_cons, Display.feed_of_none hlead,
      Terminal.feed_lead3 (toNat_lead3 c) (by omega), Display.feedAll_cons,
      Display.feed_of_none hnone, Terminal.feed_tail (toNat_tail (c >>> 6)) (by omega),
      if_neg (by decide),
      Display.feedAll_cons, feed_eq (effect_tail (toNat_tail c) (by omega)), if_pos (by decide),
      hmiddle, show (c.toNat / 4096 * 64 + c.toNat / 64 % 64) * 64 + c.toNat % 64 = c.toNat by
        omega, hact _ rfl]
    rfl

/-! ## Control sequences -/

section Sequences

variable {cells : Cells} {pen : Pen} {visible : Bool}

theorem num_lt (v : ℕ) : ∀ b ∈ num v, b.toNat < 0x40 := by
  obtain ⟨ds, heq, hdigits, -⟩ := numDigits_eq numBuf v
  intro b hb
  rw [num, heq, List.mem_reverse, List.mem_map] at hb
  obtain ⟨n, hn, rfl⟩ := hb
  have hlt := hdigits n hn
  rw [UInt8.toNat_ofNat']
  omega

/-- A number of a control sequence. -/
theorem display_num (cols rows : ℕ) (cur : Cursor) (params : List ℕ) {v : ℕ}
    (hv : v < 10 ^ numBuf) (cells : Cells) (pen : Pen) (visible : Bool) :
    (Display.mk ⟨cur, .csi false (0 :: params)⟩ cells pen visible).feedAll cols rows (num v) =
      ⟨⟨cur, .csi false (v :: params)⟩, cells, pen, visible⟩ := by
  obtain ⟨n, hnum, hn⟩ := feedAll_num cols rows cur false params v
  rw [Display.feedAll_params rfl (num_lt v)]
  dsimp only
  rw [hnum, hn hv]

theorem display_clearBytes :
    (Display.mk ⟨cur, .ground⟩ cells pen visible).feedAll cols rows clearBytes =
      ⟨⟨⟨0, 0, false⟩, .ground⟩, .cleared pen, pen, visible⟩ := by
  refine Display.ext ?_ rfl rfl rfl
  rw [Display.feedAll_terminal, feedAll_clearBytes]

theorem display_visibleBytes (shown : Bool) :
    (Display.mk ⟨cur, .ground⟩ cells pen visible).feedAll cols rows (visibleBytes shown) =
      ⟨⟨cur, .ground⟩, cells, pen, shown⟩ := by
  cases shown <;> rfl

theorem display_resetBytes :
    (Display.mk ⟨cur, .ground⟩ cells pen visible).feedAll cols rows (ascii "\x1b[0m\x1b[?25h") =
      ⟨⟨cur, .ground⟩, cells, .default, true⟩ :=
  rfl

theorem display_cursorBytes {column row : UInt64} (hcol : column.toNat < cols)
    (hrow : row.toNat < rows) (hcols : cols < 1000) (hrows : rows < 1000) :
    (Display.mk ⟨cur, .ground⟩ cells pen visible).feedAll cols rows (cursorBytes column row) =
      ⟨⟨⟨column.toNat, row.toNat, false⟩, .ground⟩, cells, pen, visible⟩ := by
  have hsmall : ∀ x : UInt64, x.toNat < 1000 → (x + 1).toNat < 10 ^ numBuf := by
    intro x hx
    rw [UInt64.toNat_add, Nat.mod_eq_of_lt (by simp; omega)]
    exact Nat.lt_of_lt_of_le (Nat.succ_lt_succ hx) (by decide)
  have hrowNum := display_num cols rows cur [] (hsmall row (by omega)) cells pen visible
  have hcolNum := display_num cols rows cur [(row + 1).toNat] (hsmall column (by omega)) cells pen
    visible
  have hterminal := feedAll_cursorBytes hcol hrow hcols hrows cur
  rw [← Display.feedAll_terminal (d := ⟨⟨cur, .ground⟩, cells, pen, visible⟩)] at hterminal
  rw [← hterminal]
  simp only [cursorBytes, Display.feedAll_append]
  rw [show (Display.mk ⟨cur, .ground⟩ cells pen visible).feedAll cols rows (ascii "\x1b[") =
    ⟨⟨cur, .csi false [0]⟩, cells, pen, visible⟩ from rfl, hrowNum,
    show (Display.mk ⟨cur, .csi false [(row + 1).toNat]⟩ cells pen visible).feedAll cols rows
      [byteOf ';'] = ⟨⟨cur, .csi false [0, (row + 1).toNat]⟩, cells, pen, visible⟩ from rfl,
    hcolNum]
  rfl

/-- The table of the source turns the colours of an attribute into those of the terminal. -/
theorem select_attribute : ∀ fg < 8, ∀ bg < 8, ∀ bright : Bool,
    [(if bright then 90 else 30) + efiToAnsi.getD fg 0, 40 + efiToAnsi.getD bg 0].foldl Pen.select
      .default = ⟨efiColour fg, bright, efiColour bg⟩ := by
  decide

theorem display_attributeBytes (value : UInt64) :
    (Display.mk ⟨cur, .ground⟩ cells pen visible).feedAll cols rows (attributeBytes value) =
      ⟨⟨cur, .ground⟩, cells, efiPen value, visible⟩ := by
  have hlow : ∀ x : UInt64, (x &&& 0x07).toNat < 8 := by
    intro x
    rw [UInt64.toNat_and]
    exact Nat.lt_of_le_of_lt Nat.and_le_right (by decide)
  have hansi : ∀ n < 8, efiToAnsi.getD n 0 < 8 := by decide
  have hselect := select_attribute _ (hlow value) _ (hlow (value >>> 4)) (value &&& 0x08 ≠ 0)
  have hfgLt := hansi _ (hlow value)
  have hbgLt := hansi _ (hlow (value >>> 4))
  simp only [decide_eq_true_eq] at hselect
  simp only [attributeBytes, Display.feedAll_append]
  generalize hfg : (if value &&& 0x08 ≠ 0 then 90 else 30) +
    efiToAnsi.getD (value &&& 0x07).toNat 0 = fg at hselect ⊢
  generalize hbg : 40 + efiToAnsi.getD ((value >>> 4) &&& 0x07).toNat 0 = bg at hselect ⊢
  have hfgNum := display_num cols rows cur [0] (v := fg) ?_ cells pen visible
  have hbgNum := display_num cols rows cur [fg, 0] (v := bg) ?_ cells pen visible
  · rw [show (Display.mk ⟨cur, .ground⟩ cells pen visible).feedAll cols rows (ascii "\x1b[0;") =
      ⟨⟨cur, .csi false [0, 0]⟩, cells, pen, visible⟩ from rfl, hfgNum,
      show (Display.mk ⟨cur, .csi false [fg, 0]⟩ cells pen visible).feedAll cols rows
        [byteOf ';'] = ⟨⟨cur, .csi false [0, fg, 0]⟩, cells, pen, visible⟩ from rfl, hbgNum]
    refine Display.ext rfl rfl ?_ rfl
    exact hselect
  · rw [← hbg]
    exact Nat.lt_of_lt_of_le (Nat.add_lt_add_left hbgLt 40) (by decide)
  · rw [← hfg]
    split
    · exact Nat.lt_of_lt_of_le (Nat.add_lt_add_left hfgLt 90) (by decide)
    · exact Nat.lt_of_lt_of_le (Nat.add_lt_add_left hfgLt 30) (by decide)

end Sequences

/-! ## What a character draws -/

theorem printChar_mode (c : UInt16) (scr : Screen) :
    (printChar c scr).1.mode.textAttribute = scr.mode.textAttribute ∧
      (printChar c scr).1.mode.cursorVisible = scr.mode.cursorVisible := by
  unfold printChar advance wrapIfPending rowDown
  repeat' split
  all_goals exact ⟨rfl, rfl⟩

theorem not_lt_of_isPrintable (hprint : Terminal.isPrintable c.toNat = true) : ¬ c < 0x20 := by
  simp only [Terminal.isPrintable, Bool.or_eq_true, Bool.and_eq_true, decide_eq_true_eq] at hprint
  rw [UInt16.lt_iff_toNat_lt]
  simp only [UInt16.reduceToNat]
  omega

/-- A character draws the same on the page and on the display. -/
theorem display_printChar {page : Page} {d : Display} (h : Pictures scr page d)
    (hplain : isPlain c = true) :
    (d.feedAll scr.cols.toNat scr.rows.toNat (printChar c scr).2).cells =
        (page.char scr.cols.toNat scr.rows.toNat c).cells ∧
      (d.feedAll scr.cols.toNat scr.rows.toNat (printChar c scr).2).pen = d.pen ∧
      (d.feedAll scr.cols.toNat scr.rows.toNat (printChar c scr).2).visible = d.visible := by
  obtain ⟨⟨cur, parser⟩, cells, pen, visible⟩ := d
  obtain ⟨⟨rfl, hshows, hin⟩, -, -, rfl, rfl, rfl, rfl⟩ := h
  unfold printChar Page.char
  dsimp only [Display.cursor]
  split
  · exact ⟨rfl, rfl, rfl⟩
  next hlf =>
  split
  · next hcr => rw [hcr]; exact ⟨rfl, rfl, rfl⟩
  split
  · next hbs =>
      rw [hbs]
      split
      · exact ⟨rfl, rfl, rfl⟩
      · exact ⟨rfl, rfl, rfl⟩
  split
  · next htab => rw [htab]; exact ⟨rfl, rfl, rfl⟩
  · next hcr hbs htab =>
      have hprint := isPrintable_of_isPlain hplain hlf hcr hbs htab
      have hctl := not_lt_of_isPrintable hprint
      rw [if_neg hctl, if_neg hctl, display_utf8 hprint]
      exact ⟨rfl, rfl, rfl⟩

theorem Pictures.printChar {page : Page} {d : Display} (h : Pictures scr page d)
    (hsize : scr.Usual) (hplain : isPlain c = true) :
    Pictures (printChar c scr).1 (page.char scr.cols.toNat scr.rows.toNat c)
      (d.feedAll scr.cols.toNat scr.rows.toNat (printChar c scr).2) := by
  obtain ⟨hcells, hpen, hvisible⟩ := display_printChar h hplain
  obtain ⟨hattr, hshown⟩ := printChar_mode c scr
  refine ⟨?_, hattr.trans h.attr, hshown.trans h.cursorVisible, hcells, ?_, hpen.trans h.pen,
    hvisible.trans h.visible⟩
  · rw [Display.feedAll_terminal]
    exact h.mirrors.printChar hsize hplain
  · obtain ⟨⟨cur, parser⟩, cells, pen, visible⟩ := d
    obtain ⟨⟨hground, hshows, hin⟩, -, -, -, hcursor, -, -⟩ := h
    obtain rfl : parser = .ground := hground
    rw [Display.cursor, Display.feedAll_terminal, feedAll_printChar hshows hin hsize hplain]
    exact congrArg (charMove scr.cols.toNat scr.rows.toNat c) hcursor

/-! ## The calls -/

section Calls

variable {σ : Type} {ssh : Ssh σ} {fw : Firmware σ} {rounds : ℕ} {con con' con'' : Console σ}
  {f g : Page → Page} {bytes : Bytes}

/-- The call emitted `bytes`, which draw on every display what `f` draws on the page. -/
structure Drawn (f : Page → Page) (bytes : Bytes) (con con' : Console σ) : Prop where
  emitted : emitted con' = emitted con ++ bytes
  cols : con'.screen.cols = con.screen.cols
  rows : con'.screen.rows = con.screen.rows
  pictures : ∀ page d, Pictures con.screen page d →
    Pictures con'.screen (f page) (d.feedAll con.screen.cols.toNat con.screen.rows.toNat bytes)

theorem Drawn.trans {xs ys : Bytes} (h : Drawn f xs con con') (h' : Drawn g ys con' con'') :
    Drawn (fun page => g (f page)) (xs ++ ys) con con'' where
  emitted := by rw [h'.emitted, h.emitted, List.append_assoc]
  cols := h'.cols.trans h.cols
  rows := h'.rows.trans h.rows
  pictures page d hpictures := by
    have hagain := h'.pictures _ _ (h.pictures page d hpictures)
    rw [h.cols, h.rows] at hagain
    rwa [Display.feedAll_append]

theorem Drawn.usual (h : Drawn f bytes con con') (hsize : con.screen.Usual) :
    con'.screen.Usual := by
  refine ⟨⟨?_, ?_⟩, ?_, ?_⟩
  · rw [h.cols]; exact hsize.cols
  · rw [h.rows]; exact hsize.rows
  · rw [h.cols]; exact hsize.minCols
  · rw [h.rows]; exact hsize.minRows

/-- Nothing emitted, and the screen as it was. -/
theorem Emitting.drawn (h : Emitting [] con con') : Drawn id [] con con' := by
  refine ⟨h.emitted, by rw [h.screen], by rw [h.screen], fun page d hpictures => ?_⟩
  rw [h.screen]
  exact hpictures

/-- Bytes behind a new screen. -/
theorem Emitting.drawn_of (h : Emitting bytes { con with screen := scr } con')
    (hcols : scr.cols = con.screen.cols) (hrows : scr.rows = con.screen.rows)
    (hpictures : ∀ page d, Pictures con.screen page d →
      Pictures scr (f page) (d.feedAll con.screen.cols.toNat con.screen.rows.toNat bytes)) :
    Drawn f bytes con con' where
  emitted := h.emitted
  cols := by rw [h.screen]; exact hcols
  rows := by rw [h.screen]; exact hrows
  pictures page d hd := by
    rw [h.screen]
    exact hpictures page d hd

theorem printString_drawn {string : List UInt16} (hplain : ∀ ch ∈ string, isPlain ch = true)
    (hsize : con.screen.Usual) :
    wp (printString ssh fw rounds string) (fun _ con' => ∃ bytes,
      Drawn (fun page => string.foldl
        (Page.char con.screen.cols.toNat con.screen.rows.toNat) page) bytes con con')
      anyStop con := by
  induction string generalizing con with
  | nil => exact ⟨[], (Emitting.refl con).drawn⟩
  | cons ch chs ih =>
      obtain ⟨hch, hchs⟩ := List.forall_mem_cons.mp hplain
      simp only [printString, wp_bind, wp_get]
      refine wp.imp (emit_emitting _) fun _ con₁ h₁ => ?_
      simp only [setScreen, wp_modify]
      have hdrawn : Drawn (fun page => page.char con.screen.cols.toNat con.screen.rows.toNat ch)
          (printChar ch con.screen).2 con { con₁ with screen := (printChar ch con.screen).1 } :=
        ⟨h₁.emitted, printChar_cols ch _, printChar_rows ch _,
          fun _ _ h => h.printChar hsize hch⟩
      refine wp.imp (ih hchs (hdrawn.usual hsize)) fun _ con₂ h => ?_
      obtain ⟨bytes, h₂⟩ := h
      have hboth := hdrawn.trans h₂
      rw [printChar_cols, printChar_rows] at hboth
      exact ⟨_, hboth⟩

/-- Clearing brings the display in line, whatever it showed before. -/
theorem pictures_cleared {page : Page} {d : Display} (hsize : scr.Usual)
    (hground : d.terminal.parser = .ground)
    (hattr : scr.mode.textAttribute = page.attr.toUInt32.toInt32)
    (hshown : scr.mode.cursorVisible = page.visible) (hpen : d.pen = efiPen page.attr)
    (hvisible : d.visible = page.visible) :
    Pictures (((scr.setColumn 0).setRow 0).setWrap false) page.clear
      (d.feedAll scr.cols.toNat scr.rows.toNat clearBytes) := by
  have hmirrors := mirrors_clear hground hsize
  rw [← Display.feedAll_terminal] at hmirrors
  obtain ⟨⟨cur, parser⟩, cells, pen, visible⟩ := d
  obtain rfl : parser = .ground := hground
  obtain rfl : pen = efiPen page.attr := hpen
  rw [display_clearBytes] at hmirrors ⊢
  exact ⟨hmirrors, hattr, hshown, rfl, rfl, rfl, hvisible⟩

theorem Pictures.clear {page : Page} {d : Display} (h : Pictures scr page d)
    (hsize : scr.Usual) :
    Pictures (((scr.setColumn 0).setRow 0).setWrap false) page.clear
      (d.feedAll scr.cols.toNat scr.rows.toNat clearBytes) :=
  pictures_cleared hsize h.mirrors.ground h.attr h.cursorVisible h.pen h.visible

theorem shimClearScreen_drawn (hsize : con.screen.Usual) :
    wp (shimClearScreen ssh fw rounds) (fun _ con' => Drawn Page.clear clearBytes con con')
      anyStop con :=
  wp.imp shimClearScreen_emitting fun _ _ h => h.drawn_of rfl rfl fun _ _ hp => hp.clear hsize

/-! ## Reading keys draws nothing -/

/-- Nothing is taken out of the output buffer. -/
def FlushedOnly (b : Bytes) (s : Shim σ) : Prop := flushedBytes s.log = b

variable {b : Bytes}

theorem flushedBytes_cons {e : ShimEvent σ} {log : List (ShimEvent σ)}
    (he : e.isOutput = false) : flushedBytes (e :: log) = flushedBytes log := by
  cases e with
  | flushed => cases he
  | _ => rfl

theorem flushedBytes_typing {es log : List (ShimEvent σ)} (h : ∀ e ∈ es, e.isTyping = true) :
    flushedBytes (es ++ log) = flushedBytes log := by
  induction es with
  | nil => rfl
  | cons e es ih =>
      obtain ⟨he, hes⟩ := List.forall_mem_cons.mp h
      rw [List.cons_append, ← ih hes, flushedBytes_cons (ShimEvent.isOutput_of_isTyping he)]

theorem flushed_inputInvariant : InputInvariant ssh (FlushedOnly b) where
  typed h hs := by
    obtain ⟨es, hlog, htyping⟩ := h.log
    rw [FlushedOnly, hlog, flushedBytes_typing htyping]
    exact hs
  keyboard _ hs := hs
  record he hs := (flushedBytes_cons he).trans hs
  read _ hs := hs
  lose hs := hs

/-- What keeps the output log draws nothing. -/
theorem onShim_drawn {α : Type} {m : ShimM σ α} (hm : ∀ b, Keeps (FlushedOnly b) m) :
    wp (onShim m) (fun _ con' => Drawn id [] con con') anyStop con := by
  rw [wp_onShim]
  refine wp.imp (hm _ con.toShim rfl) fun _ t ht => Emitting.drawn ⟨rfl, ?_⟩
  have hflushed : flushedBytes t.log = flushedBytes con.log := ht
  rw [List.append_nil, EfiSshServer.emitted, EfiSshServer.emitted, hflushed]

/-! ## Every call -/

/-- Strings are of plain characters. -/
def ConsoleCall.Plain : ConsoleCall → Prop
  | .outputString string => ∀ ch ∈ string, isPlain ch = true
  | _ => True

/-- The call left the size of the screen alone. -/
def SameSize (con con' : Console σ) : Prop :=
  con'.screen.cols = con.screen.cols ∧ con'.screen.rows = con.screen.rows

theorem resize_eq {window : UInt32 × UInt32} (hcols : (scr.resize window).cols = scr.cols)
    (hrows : (scr.resize window).rows = scr.rows) : scr.resize window = scr := by
  have h : scr.resize window = { scr with
      cols := (scr.resize window).cols, rows := (scr.resize window).rows } := rfl
  rw [h, hcols, hrows]

/-- The only mode of `ShimSetMode`. -/
def Screen.zeroMode (scr : Screen) : Screen := { scr with mode := { scr.mode with mode := 0 } }

/-- The resets of `ShimOutReset`, before it clears the screen. -/
def Screen.restored (scr : Screen) : Screen :=
  { scr with mode := { scr.mode with textAttribute := 0x07, cursorVisible := true } }

theorem Pictures.restored {page : Page} {d : Display} (h : Pictures scr page d) :
    Pictures scr.restored { page with attr := 0x07, visible := true }
      (d.feedAll scr.cols.toNat scr.rows.toNat (ascii "\x1b[0m\x1b[?25h")) := by
  obtain ⟨⟨cur, parser⟩, cells, pen, visible⟩ := d
  obtain ⟨⟨hground, hshows, hin⟩, -, -, hcells, hcursor, -, -⟩ := h
  obtain rfl : parser = .ground := hground
  rw [display_resetBytes]
  have hpen : Pen.default = efiPen 0x07 := by decide
  exact ⟨⟨rfl, ⟨hshows.col, hshows.row, hshows.pending⟩, hin⟩, rfl, rfl, hcells, hcursor, hpen, rfl⟩

theorem runConsole_drawn {call : ConsoleCall} (hplain : call.Plain) (hsize : con.screen.Usual) :
    wp (runConsole ssh fw rounds call) (fun _ con' => SameSize con con' → ∃ bytes,
      Drawn (fun page => page.call con.screen.cols.toNat con.screen.rows.toNat call)
        bytes con con') anyStop con := by
  have hflushed : ∀ b, InputInvariant ssh (FlushedOnly b) := fun _ => flushed_inputInvariant
  -- a call that says nothing to the terminal
  have hsilent : ∀ {α : Type} {m : ShimM σ α}, (∀ b, Keeps (FlushedOnly b) m) →
      wp (onShim m) (fun _ con' => SameSize con con' → ∃ bytes, Drawn id bytes con con')
        anyStop con := fun hm =>
    wp.imp (onShim_drawn hm) fun _ _ h _ => ⟨[], h⟩
  cases call <;> simp only [runConsole, wp_bind, wp_pure]
  case outputString string =>
    simp only [shimOutputString, wp_bind, wp_pure]
    refine wp.imp pollSometimes_emitting fun _ con₁ h₁ => ?_
    have hfirst := h₁.drawn
    refine wp.imp (printString_drawn hplain (hfirst.usual hsize)) fun _ con₂ h => ?_
    obtain ⟨bytes, h₂⟩ := h
    refine wp.imp flush_emitting fun _ con₃ h₃ _ => ?_
    have hall := (hfirst.trans h₂).trans h₃.drawn
    rw [h₁.screen] at hall
    exact ⟨_, hall⟩
  case testString => exact fun _ => ⟨[], (Emitting.refl con).drawn⟩
  case queryMode modeNumber =>
    refine wp.ite (fun _ _ => ⟨[], (Emitting.refl con).drawn⟩) fun _ => ?_
    simp only [refreshSize, wp_bind, wp_modify, wp_get, wp_pure]
    rintro ⟨hcols, hrows⟩
    refine ⟨[], Emitting.drawn ⟨?_, (List.append_nil _).symm⟩⟩
    exact resize_eq hcols hrows
  case setMode modeNumber =>
    refine wp.ite (fun hmode _ => ?_) fun hmode => ?_
    · refine ⟨[], ?_⟩
      simp only [Page.call, if_neg hmode]
      exact (Emitting.refl con).drawn
    simp only [Page.call, if_pos (not_not.mp hmode), setScreen, refreshSize, wp_bind, wp_modify]
    refine wp.imp shimClearScreen_emitting fun _ con₁ h₁ hsame => ?_
    obtain ⟨hcols, hrows⟩ := hsame
    rw [h₁.screen] at hcols hrows
    have hkept : con.screen.zeroMode.resize (ssh.window con.host) = con.screen.zeroMode :=
      resize_eq hcols hrows
    have hemitting : Emitting clearBytes { con with
        screen := (((con.screen.zeroMode.resize (ssh.window con.host)).setColumn 0).setRow
          0).setWrap false } con₁ := h₁
    rw [hkept] at hemitting
    refine ⟨_, hemitting.drawn_of rfl rfl fun page d h => ?_⟩
    have hmode : Pictures con.screen.zeroMode page d := by
      obtain ⟨⟨hground, hshows, hin⟩, hattr, hshown, hcells, hcursor, hpen, hvisible⟩ := h
      exact ⟨⟨hground, ⟨hshows.col, hshows.row, hshows.pending⟩, hin⟩, hattr, hshown, hcells,
        hcursor, hpen, hvisible⟩
    exact hmode.clear ⟨⟨hsize.cols, hsize.rows⟩, hsize.minCols, hsize.minRows⟩
  case setAttribute value =>
    refine wp.ite (fun hlarge _ => ⟨[], ?_⟩) fun hsmall => ?_
    · simp only [Page.call, if_neg (UInt64.not_le.mpr hlarge)]
      exact (Emitting.refl con).drawn
    simp only [Page.call, if_pos (UInt64.not_lt.mp hsmall), setScreen, wp_bind, wp_modify, wp_pure]
    refine wp.imp (emit_flush_emitting _) fun _ con₁ h₁ => wp.imp h₁ fun _ con₂ h₂ _ => ?_
    refine ⟨_, h₂.drawn_of rfl rfl fun page d h => ?_⟩
    obtain ⟨⟨cur, parser⟩, cells, pen, shown⟩ := d
    obtain ⟨⟨hground, hshows, hin⟩, -, hshown, hcells, hcursor, -, hvisible⟩ := h
    obtain rfl : parser = .ground := hground
    rw [display_attributeBytes]
    exact ⟨⟨rfl, ⟨hshows.col, hshows.row, hshows.pending⟩, hin⟩, rfl, hshown, hcells, hcursor, rfl,
      hvisible⟩
  case clearScreen => exact wp.imp (shimClearScreen_drawn hsize) fun _ _ h _ => ⟨_, h⟩
  case setCursorPosition column row =>
    have hbound : ∀ (x : UInt64) (size : UInt32), x ≥ size.toUInt64 ↔ ¬ x.toNat < size.toNat := by
      intro x size
      rw [ge_iff_le, UInt64.le_iff_toNat_le, UInt32.toNat_toUInt64, Nat.not_lt]
    refine wp.ite (fun hout _ => ⟨[], ?_⟩) fun haccept => ?_
    · rw [hbound, hbound, ← not_and_or] at hout
      simp only [Page.call, if_neg hout]
      exact (Emitting.refl con).drawn
    have hinside := haccept
    rw [hbound, hbound, ← not_and_or, not_not] at hinside
    simp only [not_or, ge_iff_le, UInt64.not_le] at haccept
    simp only [Page.call, if_pos hinside, setScreen, wp_bind, wp_modify, wp_pure]
    refine wp.imp (emit_flush_emitting _) fun _ con₁ h₁ => wp.imp h₁ fun _ con₂ h₂ _ => ?_
    refine ⟨_, h₂.drawn_of rfl rfl fun page d h => ?_⟩
    obtain ⟨⟨cur, parser⟩, cells, pen, shown⟩ := d
    obtain ⟨⟨hground, -, -⟩, hattr, hshown, hcells, -, hpen, hvisible⟩ := h
    obtain rfl : parser = .ground := hground
    obtain ⟨hshows, hholds⟩ := shows_position hsize.toSized haccept.1 haccept.2
    rw [display_cursorBytes hinside.1 hinside.2 hsize.cols hsize.rows]
    exact ⟨⟨rfl, hshows, hholds.inside rfl⟩, hattr, hshown, hcells, rfl, hpen, hvisible⟩
  case enableCursor visible =>
    simp only [shimEnableCursor, setScreen, wp_bind, wp_modify, wp_pure]
    refine wp.imp (emit_flush_emitting _) fun _ con₁ h₁ => wp.imp h₁ fun _ con₂ h₂ _ => ?_
    refine ⟨_, h₂.drawn_of rfl rfl fun page d h => ?_⟩
    obtain ⟨⟨cur, parser⟩, cells, pen, shown⟩ := d
    obtain ⟨⟨hground, hshows, hin⟩, hattr, -, hcells, hcursor, hpen, -⟩ := h
    obtain rfl : parser = .ground := hground
    rw [display_visibleBytes]
    exact ⟨⟨rfl, ⟨hshows.col, hshows.row, hshows.pending⟩, hin⟩, hattr, rfl, hcells, hcursor, hpen,
      rfl⟩
  case outReset =>
    simp only [shimOutReset, setScreen, wp_bind, wp_modify]
    refine wp.imp (emit_flush_emitting _) fun _ con₁ h₁ => wp.imp h₁ fun _ con₂ h₂ => ?_
    have hemitting : Emitting _ { con with screen := con.screen.restored } con₂ := h₂
    have hreset : Drawn (fun page => { page with attr := 0x07, visible := true }) _ con con₂ :=
      hemitting.drawn_of rfl rfl fun _ _ h => h.restored
    refine wp.imp (shimClearScreen_drawn (hreset.usual hsize)) fun _ con₃ h₃ _ => ?_
    exact ⟨_, hreset.trans h₃⟩
  case inReset => exact hsilent fun b => (hflushed b).shimInReset
  case readKey => exact hsilent fun b => .bind (hflushed b).readCommon fun _ => .pure _
  case readKeyEx given =>
    exact hsilent fun b => .ite (fun _ => (hflushed b).readCommon) fun _ => .pure _
  case waitKey => exact hsilent fun b => (hflushed b).shimWaitKeyNotify
  case registerNotify kd fn wanted =>
    exact hsilent fun b => (hflushed b).shimRegisterNotify kd fn wanted
  case unregisterNotify handle =>
    exact hsilent fun b => (hflushed b).shimUnregisterNotify handle

/-! ## Runs -/

/-- A run of the shim with the calls made, while the client leaves its window alone. -/
inductive PageRuns (ssh : Ssh σ) (fw : Firmware σ) (s : Console σ) :
    List ConsoleCall → Console σ → Prop
  | none : PageRuns ssh fw s [] s
  | call {t t' : Console σ} {calls : List ConsoleCall} (h : PageRuns ssh fw s calls t) (rounds : ℕ)
      (call : ConsoleCall) (hplain : call.Plain) (hsize : SameSize t t')
      (hrun : runConsole ssh fw rounds call t = .ok ((), t')) :
      PageRuns ssh fw s (calls ++ [call]) t'

/-- The page behind the calls. -/
def Page.calls (cols rows : ℕ) (page : Page) (calls : List ConsoleCall) : Page :=
  calls.foldl (Page.call cols rows) page

theorem PageRuns.drawn {calls : List ConsoleCall} (h : PageRuns ssh fw con calls con')
    (hsize : con.screen.Usual) : ∃ bytes, Drawn
      (fun page => page.calls con.screen.cols.toNat con.screen.rows.toNat calls)
      bytes con con' := by
  induction h with
  | none => exact ⟨[], (Emitting.refl con).drawn⟩
  | call _ rounds call hplain hsame hrun ih =>
      obtain ⟨bytes, hdrawn⟩ := ih
      obtain ⟨bytes', hcall⟩ := (runConsole_drawn hplain (hdrawn.usual hsize)).ok hrun hsame
      rw [hdrawn.cols, hdrawn.rows] at hcall
      refine ⟨bytes ++ bytes', ?_⟩
      have hboth := hdrawn.trans hcall
      simpa only [Page.calls, List.foldl_append, List.foldl_cons, List.foldl_nil] using hboth

/-- What every call keeps, a run keeps. -/
theorem PageRuns.invariant {J : Console σ → Prop} (hJ : ConsoleInvariant ssh fw J)
    {calls : List ConsoleCall} (h : PageRuns ssh fw con calls con') (hcon : J con) : J con' := by
  induction h with
  | none => exact hcon
  | call _ rounds call _ _ hrun ih => exact (hJ.runConsole call _ ih).ok hrun

/-- **The remote terminal shows the console.**  From a `ClearScreen` on and while the client
leaves its window alone, a terminal that reads the bytes emitted shows what a text console
would show after the same calls: the same characters in the same colours, and the cursor in
the same place, which is where the shim reports it. -/
theorem display_refines {page : Page} {d : Display} {calls : List ConsoleCall}
    (hcols : 20 ≤ con.screen.cols.toNat ∧ con.screen.cols.toNat < 1000)
    (hrows : 5 ≤ con.screen.rows.toNat ∧ con.screen.rows.toNat < 1000)
    (hclear : runConsole ssh fw rounds .clearScreen con = .ok ((), con'))
    (hruns : PageRuns ssh fw con' calls con'') (hground : d.terminal.parser = .ground)
    (hattr : con.screen.mode.textAttribute = page.attr.toUInt32.toInt32)
    (hshown : con.screen.mode.cursorVisible = page.visible) (hpen : d.pen = efiPen page.attr)
    (hvisible : d.visible = page.visible) :
    ∃ bytes, emitted con'' = emitted con ++ bytes ∧
      Pictures con''.screen
        (page.clear.calls con.screen.cols.toNat con.screen.rows.toNat calls)
        (d.feedAll con.screen.cols.toNat con.screen.rows.toNat bytes) := by
  have hsize : con.screen.Usual := ⟨⟨hcols.2, hrows.2⟩, hcols.1, hrows.1⟩
  have hfirst : wp (runConsole ssh fw rounds .clearScreen) (fun _ => Emitting clearBytes
      { con with screen := ((con.screen.setColumn 0).setRow 0).setWrap false }) anyStop con := by
    simp only [runConsole, wp_bind, wp_pure]
    exact shimClearScreen_emitting
  have hcleared := hfirst.ok hclear
  have hscreen := hcleared.screen
  have hpictures := pictures_cleared hsize hground hattr hshown hpen hvisible
  obtain ⟨bytes, hdrawn⟩ := hruns.drawn (by rw [hscreen]; exact
    ⟨⟨hcols.2, hrows.2⟩, hcols.1, hrows.1⟩)
  refine ⟨clearBytes ++ bytes, ?_, ?_⟩
  · rw [hdrawn.emitted, hcleared.emitted, List.append_assoc]
    rfl
  · rw [Display.feedAll_append]
    have hagain := hdrawn.pictures _ _ (by rw [hscreen]; exact hpictures)
    rwa [hscreen] at hagain

/-- The page and the display when the shim is installed. -/
def freshPage : Page := ⟨.cleared .default, ⟨0, 0, false⟩, 0x07, true⟩

def freshDisplay : Display := ⟨⟨⟨0, 0, false⟩, .ground⟩, .cleared .default, .default, true⟩

theorem display_refines_string : ∃ (con con' : Console Server) (bytes : Bytes),
    emitted con' = emitted con ++ bytes ∧ Pictures con'.screen
      (freshPage.clear.calls con.screen.cols.toNat con.screen.rows.toNat
        [.outputString [108, 115]])
      (freshDisplay.feedAll con.screen.cols.toNat con.screen.rows.toNat bytes) := by
  obtain ⟨host, con, -, -, -, hcols, hrows, hattr, hshown, hrun⟩ :=
    exists_shim (E := plainEnv fun _ _ => true)
    (P := fun con => (20 ≤ con.screen.cols.toNat ∧ con.screen.cols.toNat < 1000) ∧
      (5 ≤ con.screen.rows.toNat ∧ con.screen.rows.toNat < 1000) ∧
      con.screen.mode.textAttribute = freshPage.attr.toUInt32.toInt32 ∧
      con.screen.mode.cursorVisible = true ∧
      (runConsole (serverSsh (plainEnv fun _ _ => true)) quietFirmware scenarioRounds .clearScreen
        con).toOption.any (fun r => decide ((runConsole (serverSsh (plainEnv fun _ _ => true))
          quietFirmware scenarioRounds (.outputString [108, 115]) r.2).toOption.any (fun t =>
            decide (t.2.screen.cols = r.2.screen.cols ∧ t.2.screen.rows = r.2.screen.rows)) =
          true)) = true) []
    [.data (clientShell "root" "secret")] (by decide +kernel)
  obtain ⟨⟨_, con'⟩, hclear, hstring⟩ := exists_ok hrun
  obtain ⟨⟨_, con''⟩, hcall, hsame⟩ := exists_ok hstring
  have hplain := List.all_eq_true.mp (show [108, 115].all isPlain = true from rfl)
  have hruns := PageRuns.none.call scenarioRounds (.outputString _) hplain hsame hcall
  obtain ⟨bytes, hemitted, hpictures⟩ :=
    display_refines hcols hrows hclear hruns (d := freshDisplay) rfl hattr hshown (by decide) rfl
  exact ⟨con, con'', bytes, hemitted, hpictures⟩

end Calls

end EfiSshServer
