import Mathlib.Logic.Function.Basic
import EfiSshServer.Lib.Terminal

/-!
# What a terminal shows

A `Display` is a terminal with its screen: a character and its colours in each cell, the
colours of the next character, and whether the cursor is visible.  Of the control sequences
it knows, besides the position, `J` with 2 (erase all), `m` (colours) and `h` and `l` with
`?25` (the cursor).

`Terminal.effect` says what a byte asks for, so that the cursor and the parser are those of
`Terminal.feed` and only the rest is new.  Cells below and beside the screen exist and are
never shown.
-/

namespace DeferredWrap

/-! ## Cells -/

inductive Colour where
  | black | red | green | yellow | blue | magenta | cyan | white
  deriving DecidableEq, Repr

/-- The colours of a character. -/
structure Pen where
  fg : Colour
  bright : Bool
  bg : Colour
  deriving DecidableEq, Repr

/-- The colours a terminal starts with. -/
def Pen.default : Pen := ⟨.white, false, .black⟩

structure Cell where
  char : ℕ
  pen : Pen
  deriving DecidableEq, Repr

/-- An empty cell has the background of the pen that made it. -/
def blank (pen : Pen) : Cell := ⟨0x20, pen⟩

/-- The cells by row and column, from the upper left. -/
abbrev Cells := ℕ → ℕ → Cell

namespace Cells

variable (rows : ℕ) (pen : Pen)

def cleared : Cells := fun _ _ => blank pen

def put (g : Cells) (row col : ℕ) (cell : Cell) : Cells :=
  Function.update g row (Function.update (g row) col cell)

/-- Each row moves up, and the last one is empty. -/
def scroll (g : Cells) : Cells := fun row =>
  if row + 1 < rows then g (row + 1) else fun _ => blank pen

/-- What moving the cursor down does: in the last row the screen scrolls. -/
def down (c : Cursor) (g : Cells) : Cells := if c.row + 1 < rows then g else g.scroll rows pen

/-- The wrap that was put off. -/
def wrap (c : Cursor) (g : Cells) : Cells := if c.pending then g.down rows pen c else g

/-- A character goes where the cursor is once the wrap is done. -/
def print (c : Cursor) (ch : ℕ) (g : Cells) : Cells :=
  (g.wrap rows pen c).put (c.wrap rows).row (c.wrap rows).col ⟨ch, pen⟩

end Cells

/-! ## Colours -/

/-- The colours of `m` in their order. -/
def ansiColour : ℕ → Colour
  | 0 => .black
  | 1 => .red
  | 2 => .green
  | 3 => .yellow
  | 4 => .blue
  | 5 => .magenta
  | 6 => .cyan
  | _ => .white

/-- One number of an `m`. -/
def Pen.select (pen : Pen) (n : ℕ) : Pen :=
  if n = 0 then .default
  else if 30 ≤ n ∧ n ≤ 37 then { pen with fg := ansiColour (n - 30), bright := false }
  else if 90 ≤ n ∧ n ≤ 97 then { pen with fg := ansiColour (n - 90), bright := true }
  else if 40 ≤ n ∧ n ≤ 47 then { pen with bg := ansiColour (n - 40) }
  else pen

/-! ## The display -/

/-- What a byte asks for. -/
inductive Effect where
  | none
  | char (ch : ℕ)
  | lineFeed
  | sequence (priv : Bool) (params : List ℕ) (final : ℕ)

namespace Terminal

/-- A byte outside sequences and characters. -/
def groundEffect (b : ℕ) : Effect :=
  if b = 0x0A then .lineFeed else if b < 0x80 then .char b else .none

def effect (t : Terminal) (b : UInt8) : Effect :=
  match t.parser with
  | .ground => groundEffect b.toNat
  | .utf8 need acc =>
      if 0x80 ≤ b.toNat ∧ b.toNat < 0xC0 then
        if need ≤ 1 then .char (acc * 64 + (b.toNat - 0x80)) else .none
      else groundEffect b.toNat
  | .escape => .none
  | .csi priv params =>
      if 0x40 ≤ b.toNat ∧ b.toNat ≤ 0x7E then .sequence priv params.reverse b.toNat else .none

end Terminal

@[ext] structure Display where
  terminal : Terminal
  cells : Cells
  pen : Pen
  visible : Bool

namespace Display

variable (cols rows : ℕ)

def cursor (d : Display) : Cursor := d.terminal.cursor

/-- The end of a control sequence, but for the cursor. -/
def sequence (priv : Bool) (params : List ℕ) (final : ℕ) (d : Display) : Display :=
  if final = 0x4A ∧ priv = false ∧ params = [2] then { d with cells := .cleared d.pen }
  else if final = 0x6D ∧ priv = false then { d with pen := params.foldl Pen.select d.pen }
  else if final = 0x68 ∧ priv = true ∧ params = [25] then { d with visible := true }
  else if final = 0x6C ∧ priv = true ∧ params = [25] then { d with visible := false }
  else d

def act (d : Display) : Effect → Display
  | .none => d
  | .char ch =>
      if Terminal.isPrintable ch then { d with cells := d.cells.print rows d.pen d.cursor ch }
      else d
  | .lineFeed => { d with cells := d.cells.down rows d.pen d.cursor }
  | .sequence priv params final => d.sequence priv params final

def feed (d : Display) (b : UInt8) : Display :=
  { d.act rows (d.terminal.effect b) with terminal := d.terminal.feed cols rows b }

def feedAll (d : Display) (bytes : List UInt8) : Display := bytes.foldl (feed cols rows) d

variable {cols rows} {d : Display}

@[simp] theorem feedAll_nil : d.feedAll cols rows [] = d := rfl

@[simp] theorem feedAll_cons (b : UInt8) (bs : List UInt8) :
    d.feedAll cols rows (b :: bs) = (d.feed cols rows b).feedAll cols rows bs := rfl

theorem feedAll_append (xs ys : List UInt8) :
    d.feedAll cols rows (xs ++ ys) = (d.feedAll cols rows xs).feedAll cols rows ys :=
  List.foldl_append

@[simp] theorem feed_terminal (b : UInt8) :
    (d.feed cols rows b).terminal = d.terminal.feed cols rows b := rfl

/-- The terminal in a display is a terminal. -/
theorem feedAll_terminal (bytes : List UInt8) :
    (d.feedAll cols rows bytes).terminal = d.terminal.feedAll cols rows bytes := by
  induction bytes generalizing d with
  | nil => rfl
  | cons b bs ih => rw [feedAll_cons, ih, feed_terminal, Terminal.feedAll_cons]

/-- A byte that asks for nothing. -/
theorem feed_of_none {b : UInt8} (h : d.terminal.effect b = .none) :
    d.feed cols rows b = { d with terminal := d.terminal.feed cols rows b } := by
  rw [feed, h, act]

/-- Inside a control sequence, numbers and what stands between them ask for nothing. -/
theorem feedAll_params {priv : Bool} {params : List ℕ}
    (hparser : d.terminal.parser = .csi priv params) {bytes : List UInt8}
    (hbytes : ∀ b ∈ bytes, b.toNat < 0x40) :
    d.feedAll cols rows bytes =
      { d with terminal := d.terminal.feedAll cols rows bytes } := by
  induction bytes generalizing d priv params with
  | nil => rfl
  | cons b bs ih =>
      obtain ⟨hb, hbs⟩ := List.forall_mem_cons.mp hbytes
      have hnone : d.terminal.effect b = .none := by
        unfold Terminal.effect
        rw [hparser]
        exact if_neg (by omega)
      obtain ⟨priv', params', hnext⟩ : ∃ priv' params',
          (d.terminal.feed cols rows b).parser = .csi priv' params' := by
        unfold Terminal.feed
        rw [hparser]
        unfold Terminal.csi
        dsimp only
        split
        · exact ⟨_, _, rfl⟩
        split
        · exact ⟨_, _, rfl⟩
        split
        · exact ⟨_, _, rfl⟩
        rw [if_neg (by omega)]
        exact ⟨_, _, rfl⟩
      rw [feedAll_cons, feed_of_none hnone, ih hnext hbs, Terminal.feedAll_cons]

/-! ## Changes of size -/

variable {d' : Display} {cols' rows' : ℕ}

/-- The displays differ at most in the text and in the place of the cursor. -/
structure Alike (d d' : Display) : Prop where
  parser : d'.terminal.parser = d.terminal.parser
  pen : d'.pen = d.pen
  visible : d'.visible = d.visible

theorem Alike.act (h : Alike d d') (e : Effect) :
    (d'.act rows' e).pen = (d.act rows e).pen ∧
      (d'.act rows' e).visible = (d.act rows e).visible := by
  cases e with
  | none => exact ⟨h.pen, h.visible⟩
  | lineFeed => exact ⟨h.pen, h.visible⟩
  | char ch =>
      simp only [Display.act]
      split <;> exact ⟨h.pen, h.visible⟩
  | sequence priv params final =>
      simp only [Display.act, sequence]
      split_ifs
      · exact ⟨h.pen, h.visible⟩
      · exact ⟨congrArg (params.foldl Pen.select) h.pen, h.visible⟩
      · exact ⟨h.pen, rfl⟩
      · exact ⟨h.pen, rfl⟩
      · exact ⟨h.pen, h.visible⟩

theorem Alike.feed (h : Alike d d') (b : UInt8) :
    Alike (d.feed cols rows b) (d'.feed cols' rows' b) := by
  have heffect : d'.terminal.effect b = d.terminal.effect b := by
    simp only [Terminal.effect, h.parser]
  obtain ⟨hpen, hvisible⟩ := h.act (d.terminal.effect b)
  refine ⟨Terminal.feed_midway h.parser _ _ _ _ b, ?_, ?_⟩
  · rw [Display.feed, heffect]
    exact hpen
  · rw [Display.feed, heffect]
    exact hvisible

end Display

end DeferredWrap
