import Mathlib.Data.List.Basic

/-!
# A terminal with deferred wrap

The cursor of a terminal of `cols` columns and `rows` rows, and the bytes that move it.
A character printed in the last column leaves the cursor there with the wrap pending;
the next one first goes to the start of the next row.  Moving down in the last row
scrolls, which leaves the cursor where it is.

`Terminal` reads a byte stream: UTF-8 characters, the controls LF, CR, BS and TAB, and
control sequences (`ESC [`, a `?`, numbers separated by `;`, and a final byte), of which
only `H` moves the cursor.  A row or column of a position that is missing or 0 is 1, and
a position outside the screen is moved to its edge.
-/

namespace DeferredWrap

/-! ## The cursor -/

structure Cursor where
  col : ℕ
  row : ℕ
  pending : Bool
  deriving DecidableEq, Repr

namespace Cursor

variable (cols rows : ℕ)

def down (c : Cursor) : Cursor := if c.row + 1 < rows then { c with row := c.row + 1 } else c

def lineFeed (c : Cursor) : Cursor := { c.down rows with pending := false }

def carriageReturn (c : Cursor) : Cursor := { c with col := 0, pending := false }

def backspace (c : Cursor) : Cursor := { c with col := c.col - 1, pending := false }

/-- To the next multiple of 8, but not past the last column. -/
def tab (c : Cursor) : Cursor :=
  { c with col := min ((c.col / 8 + 1) * 8) (cols - 1), pending := false }

/-- The wrap that was put off. -/
def wrap (c : Cursor) : Cursor :=
  if c.pending then { down rows { c with col := 0 } with pending := false } else c

def advance (c : Cursor) : Cursor :=
  if c.col + 1 < cols then { c with col := c.col + 1 } else { c with pending := true }

/-- A character of one column. -/
def print (c : Cursor) : Cursor := (c.wrap rows).advance cols

/-- The position of a row or column counted from 1; 0 stands for 1. -/
def clamp (limit n : ℕ) : ℕ := min (n - 1) (limit - 1)

def moveTo (row col : ℕ) : Cursor := ⟨clamp cols col, clamp rows row, false⟩

structure OnScreen (c : Cursor) : Prop where
  col : c.col < cols
  row : c.row < rows

/-- The cursor is on the screen, and a wrap is pending only in the last column. -/
structure Inside (c : Cursor) : Prop extends OnScreen cols rows c where
  last : c.pending = true → c.col + 1 = cols

variable {cols rows} {c : Cursor}

theorem OnScreen.down (h : c.OnScreen cols rows) : (c.down rows).OnScreen cols rows := by
  unfold Cursor.down
  split
  · next hrow => exact ⟨h.col, hrow⟩
  · exact h

@[simp] theorem down_pending (c : Cursor) : (c.down rows).pending = c.pending := by
  unfold Cursor.down
  split <;> rfl

theorem OnScreen.lineFeed (h : c.OnScreen cols rows) : (c.lineFeed rows).OnScreen cols rows :=
  ⟨h.down.col, h.down.row⟩

theorem OnScreen.carriageReturn (h : c.OnScreen cols rows) :
    c.carriageReturn.OnScreen cols rows :=
  ⟨Nat.zero_lt_of_lt h.col, h.row⟩

theorem OnScreen.backspace (h : c.OnScreen cols rows) : c.backspace.OnScreen cols rows :=
  ⟨Nat.lt_of_le_of_lt (Nat.sub_le _ _) h.col, h.row⟩

theorem OnScreen.tab (h : c.OnScreen cols rows) : (c.tab cols).OnScreen cols rows := by
  have hcols := Nat.zero_lt_of_lt h.col
  refine ⟨?_, h.row⟩
  simp only [Cursor.tab]
  omega

theorem OnScreen.wrap (h : c.OnScreen cols rows) : (c.wrap rows).OnScreen cols rows := by
  unfold Cursor.wrap
  split
  · have hstart : OnScreen cols rows { c with col := 0 } := ⟨Nat.zero_lt_of_lt h.col, h.row⟩
    exact ⟨hstart.down.col, hstart.down.row⟩
  · exact h

theorem OnScreen.advance (h : c.OnScreen cols rows) : (c.advance cols).OnScreen cols rows := by
  unfold Cursor.advance
  split
  · next hnext => exact ⟨hnext, h.row⟩
  · exact ⟨h.col, h.row⟩

theorem OnScreen.print (h : c.OnScreen cols rows) : (c.print cols rows).OnScreen cols rows :=
  h.wrap.advance

theorem OnScreen.inside (h : c.OnScreen cols rows) (hpending : c.pending = false) :
    c.Inside cols rows :=
  ⟨h, fun hwrap => by rw [hpending] at hwrap; cases hwrap⟩

theorem wrap_pending (c : Cursor) : (c.wrap rows).pending = false := by
  unfold Cursor.wrap
  split
  · rfl
  · next hpending => simpa using hpending

theorem OnScreen.print_inside (h : c.OnScreen cols rows) :
    (c.print cols rows).Inside cols rows := by
  refine ⟨h.print, fun hpending => ?_⟩
  have hcol := h.wrap.col
  have hwrapped : (c.wrap rows).pending = false := wrap_pending c
  revert hpending
  simp only [Cursor.print, Cursor.advance]
  split
  · intro hpending
    rw [hwrapped] at hpending
    cases hpending
  · intro _
    dsimp only
    omega

/-- A position on the screen, counted from 1. -/
theorem moveTo_succ {row col : ℕ} (hcol : col < cols) (hrow : row < rows) :
    moveTo cols rows (row + 1) (col + 1) = ⟨col, row, false⟩ := by
  simp only [moveTo, clamp, Nat.add_sub_cancel]
  rw [Nat.min_eq_left (by omega), Nat.min_eq_left (by omega)]

end Cursor

/-! ## The byte stream -/

inductive Parser where
  | ground
  /-- Inside a UTF-8 character of which `need` bytes are missing. -/
  | utf8 (need acc : ℕ)
  | escape
  /-- Behind `ESC [`: whether a `?` came, and the numbers so far, last one first. -/
  | csi (priv : Bool) (params : List ℕ)
  deriving DecidableEq, Repr

structure Terminal where
  cursor : Cursor
  parser : Parser
  deriving DecidableEq, Repr

namespace Terminal

variable (cols rows : ℕ)

/-- A character that takes one column. -/
def isPrintable (ch : ℕ) : Bool := (0x20 ≤ ch && ch < 0x7F) || 0xA0 ≤ ch

/-- A decoded character. -/
def char (ch : ℕ) (t : Terminal) : Terminal :=
  { cursor := if isPrintable ch then t.cursor.print cols rows else t.cursor
    parser := .ground }

/-- A byte outside sequences and characters. -/
def ground (b : ℕ) (t : Terminal) : Terminal :=
  if b = 0x0A then { t with cursor := t.cursor.lineFeed rows }
  else if b = 0x0D then { t with cursor := t.cursor.carriageReturn }
  else if b = 0x08 then { t with cursor := t.cursor.backspace }
  else if b = 0x09 then { t with cursor := t.cursor.tab cols }
  else if b = 0x1B then { t with parser := .escape }
  else if 0xF0 ≤ b then { t with parser := .utf8 3 (b - 0xF0) }
  else if 0xE0 ≤ b then { t with parser := .utf8 2 (b - 0xE0) }
  else if 0xC0 ≤ b then { t with parser := .utf8 1 (b - 0xC0) }
  else if b < 0x80 then char cols rows b t
  else t

/-- The end of a control sequence. -/
def dispatch (priv : Bool) (params : List ℕ) (final : ℕ) (t : Terminal) : Terminal :=
  { cursor :=
      if final = 0x48 ∧ priv = false then
        .moveTo cols rows (params.getD 0 0) (params.getD 1 0)
      else t.cursor
    parser := .ground }

/-- A byte of a control sequence. -/
def csi (priv : Bool) (params : List ℕ) (b : ℕ) (t : Terminal) : Terminal :=
  if 0x30 ≤ b ∧ b ≤ 0x39 then
    { t with parser := .csi priv ((params.headD 0 * 10 + (b - 0x30)) :: params.tail) }
  else if b = 0x3B then { t with parser := .csi priv (0 :: params) }
  else if b = 0x3F then { t with parser := .csi true params }
  else if 0x40 ≤ b ∧ b ≤ 0x7E then dispatch cols rows priv params.reverse b t
  else { t with parser := .csi priv params }

def feed (t : Terminal) (b : UInt8) : Terminal :=
  match t.parser with
  | .ground => ground cols rows b.toNat t
  | .utf8 need acc =>
      if 0x80 ≤ b.toNat ∧ b.toNat < 0xC0 then
        if need ≤ 1 then char cols rows (acc * 64 + (b.toNat - 0x80)) t
        else { t with parser := .utf8 (need - 1) (acc * 64 + (b.toNat - 0x80)) }
      else ground cols rows b.toNat { t with parser := .ground }
  | .escape =>
      if b = 0x5B then { t with parser := .csi false [0] } else { t with parser := .ground }
  | .csi priv params => csi cols rows priv params b.toNat t

def feedAll (t : Terminal) (bytes : List UInt8) : Terminal := bytes.foldl (feed cols rows) t

variable {cols rows} {t : Terminal}

@[simp] theorem feedAll_nil : t.feedAll cols rows [] = t := rfl

@[simp] theorem feedAll_cons (b : UInt8) (bs : List UInt8) :
    t.feedAll cols rows (b :: bs) = (t.feed cols rows b).feedAll cols rows bs := rfl

theorem feedAll_append (xs ys : List UInt8) :
    t.feedAll cols rows (xs ++ ys) = (t.feedAll cols rows xs).feedAll cols rows ys :=
  List.foldl_append

/-! ## Characters -/

/-- A byte that is a character of its own. -/
theorem feed_char {c : Cursor} {b : UInt8} (hlow : 0x20 ≤ b.toNat) (hhigh : b.toNat < 0x80) :
    (Terminal.mk c .ground).feed cols rows b = char cols rows b.toNat ⟨c, .ground⟩ := by
  simp only [feed, ground]
  repeat rw [if_neg (by omega)]
  rw [if_pos hhigh]

/-- The first byte of a character of two bytes. -/
theorem feed_lead2 {c : Cursor} {b : UInt8} {hi : ℕ} (hb : b.toNat = 0xC0 + hi) (hhi : hi < 32) :
    (Terminal.mk c .ground).feed cols rows b = ⟨c, .utf8 1 hi⟩ := by
  simp only [feed, ground, hb]
  repeat rw [if_neg (by omega)]
  rw [if_pos (by omega), Nat.add_sub_cancel_left]

/-- The first byte of a character of three bytes. -/
theorem feed_lead3 {c : Cursor} {b : UInt8} {hi : ℕ} (hb : b.toNat = 0xE0 + hi) (hhi : hi < 16) :
    (Terminal.mk c .ground).feed cols rows b = ⟨c, .utf8 2 hi⟩ := by
  simp only [feed, ground, hb]
  repeat rw [if_neg (by omega)]
  rw [if_pos (by omega), Nat.add_sub_cancel_left]

/-- A continuation byte. -/
theorem feed_tail {c : Cursor} {b : UInt8} {need acc lo : ℕ} (hb : b.toNat = 0x80 + lo)
    (hlo : lo < 64) :
    (Terminal.mk c (.utf8 need acc)).feed cols rows b =
      if need ≤ 1 then char cols rows (acc * 64 + lo) ⟨c, .utf8 need acc⟩
      else ⟨c, .utf8 (need - 1) (acc * 64 + lo)⟩ := by
  simp only [feed, hb]
  rw [if_pos (by omega), Nat.add_sub_cancel_left]

/-! ## The parser -/

/-- What the parser does depends neither on the cursor nor on the size. -/
theorem feed_midway {t t' : Terminal} (h : t'.parser = t.parser) (cols rows cols' rows' : ℕ)
    (b : UInt8) : (t'.feed cols' rows' b).parser = (t.feed cols rows b).parser := by
  obtain ⟨cur, parser⟩ := t
  obtain ⟨cur', parser'⟩ := t'
  obtain rfl : parser' = parser := h
  have hground : ∀ p p' : Terminal, p'.parser = p.parser →
      (ground cols' rows' b.toNat p').parser = (ground cols rows b.toNat p).parser := by
    intro p p' hp
    simp only [ground, char, apply_ite Terminal.parser, hp]
  cases parser' with
  | ground => exact hground _ _ rfl
  | utf8 need acc =>
      simp only [feed, char, apply_ite Terminal.parser]
      rw [hground ⟨cur, .ground⟩ ⟨cur', .ground⟩ rfl]
  | escape =>
      simp only [feed, apply_ite Terminal.parser]
  | csi priv params =>
      simp only [feed, csi, dispatch, apply_ite Terminal.parser]

/-! ## Numbers -/

/-- The number that digits spell, behind another number. -/
def numeral (n : ℕ) (digits : List ℕ) : ℕ := digits.foldl (fun n d => n * 10 + d) n

/-- Digits extend the last number of a control sequence. -/
theorem feedAll_digits {c : Cursor} {priv : Bool} {n : ℕ} {params : List ℕ} (digits : List ℕ)
    (hdigits : ∀ d ∈ digits, d < 10) :
    (Terminal.mk c (.csi priv (n :: params))).feedAll cols rows
        (digits.map fun d => UInt8.ofNat (0x30 + d)) =
      ⟨c, .csi priv (numeral n digits :: params)⟩ := by
  induction digits generalizing n with
  | nil => rfl
  | cons d ds ih =>
      obtain ⟨hd, hds⟩ := List.forall_mem_cons.mp hdigits
      have hbyte : (UInt8.ofNat (0x30 + d)).toNat = 0x30 + d := by
        rw [UInt8.toNat_ofNat']
        omega
      have hstep : (Terminal.mk c (.csi priv (n :: params))).feed cols rows
          (UInt8.ofNat (0x30 + d)) = ⟨c, .csi priv ((n * 10 + d) :: params)⟩ := by
        simp only [feed, csi, hbyte]
        rw [if_pos (by omega), Nat.add_sub_cancel_left]
        rfl
      rw [List.map_cons, feedAll_cons, hstep]
      exact ih hds

end Terminal

end DeferredWrap
