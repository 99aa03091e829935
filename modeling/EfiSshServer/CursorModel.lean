import EfiSshServer.Lib.Terminal
import EfiSshServer.ShimSteps

/-!
# The cursor model of the shim

`Shows` relates the three fields in which the shim keeps its cursor to a cursor in
natural numbers.  A character moves both alike (`printChar_shows`), as long as the cursor
is on the screen and the screen is smaller than 1000 by 1000, which is all that
`SshGetWindow` answers.
-/

namespace EfiSshServer

open StateProgram DeferredWrap

variable {scr : Screen} {cur : Cursor} {c : UInt16}

/-! ## The `INT32` fields -/

theorem toNat_toUInt32_ofNat {n : ℕ} (hn : n < 1000) : (Int32.ofNat n).toUInt32.toNat = n := by
  simp only [Int32.toUInt32_ofNat', UInt32.toNat_ofNat']
  omega

theorem toInt32_eq_ofNat (x : UInt32) : x.toInt32 = Int32.ofNat x.toNat := by
  rw [show Int32.ofNat x.toNat = (UInt32.ofNat x.toNat).toInt32 from rfl, UInt32.ofNat_toNat]

theorem ofNat_succ (n : ℕ) : Int32.ofNat n + 1 = Int32.ofNat (n + 1) := by
  rw [Int32.ofNat_add]
  rfl

theorem ofNat_pred {n : ℕ} (hn : 0 < n) : Int32.ofNat n - 1 = Int32.ofNat (n - 1) := by
  rw [Int32.ofNat_sub _ _ hn]
  rfl

theorem ofNat_pos {n : ℕ} (hn : n < 1000) : Int32.ofNat n > 0 ↔ 0 < n := by
  rw [gt_iff_lt, Int32.lt_iff_toInt_lt, Int32.toInt_ofNat_of_lt (by omega)]
  simp

/-- The tab stop behind a column, as the source computes it. -/
theorem ofNat_tab : ∀ n < 1000,
    (Int32.ofNat n &&& ~~~7) + 8 = Int32.ofNat ((n / 8 + 1) * 8) := by
  decide +kernel

/-- One more than a cursor field, compared with the size. -/
theorem succ_lt_iff {n : ℕ} (hn : n < 1000) (size : UInt32) :
    (Int32.ofNat n).toUInt32 + 1 < size ↔ n + 1 < size.toNat := by
  rw [UInt32.lt_iff_toNat_lt, UInt32.toNat_add, toNat_toUInt32_ofNat hn,
    Nat.mod_eq_of_lt (by simp; omega)]
  rfl

/-! ## The relation -/

/-- The shim's cursor fields say what `cur` says. -/
structure Shows (scr : Screen) (cur : Cursor) : Prop where
  col : scr.mode.cursorColumn = Int32.ofNat cur.col
  row : scr.mode.cursorRow = Int32.ofNat cur.row
  pending : scr.pendingWrap = cur.pending

/-- The sizes a shim can have. -/
structure Screen.Sized (scr : Screen) : Prop where
  cols : scr.cols.toNat < 1000
  rows : scr.rows.toNat < 1000

/-- The cursor is on a screen of this size. -/
abbrev Screen.Holds (scr : Screen) (cur : Cursor) : Prop :=
  cur.OnScreen scr.cols.toNat scr.rows.toNat

/-- The move of a character. -/
def charMove (cols rows : ℕ) (c : UInt16) (cur : Cursor) : Cursor :=
  if c = charLinefeed then cur.carriageReturn.lineFeed rows
  else if c = charCarriageReturn then cur.carriageReturn
  else if c = charBackspace then cur.backspace
  else if c = charTab then cur.tab cols
  else if c < 0x20 then cur
  else cur.print cols rows

theorem OnScreen.charMove {cols rows : ℕ} (h : cur.OnScreen cols rows) :
    (charMove cols rows c cur).OnScreen cols rows := by
  unfold EfiSshServer.charMove
  split
  · exact h.carriageReturn.lineFeed
  split
  · exact h.carriageReturn
  split
  · exact h.backspace
  split
  · exact h.tab
  split
  · exact h
  · exact h.print

@[simp] theorem rowDown_cols (scr : Screen) : (rowDown scr).cols = scr.cols := by
  unfold rowDown
  split <;> rfl

@[simp] theorem rowDown_rows (scr : Screen) : (rowDown scr).rows = scr.rows := by
  unfold rowDown
  split <;> rfl

@[simp] theorem wrapIfPending_cols (scr : Screen) : (wrapIfPending scr).cols = scr.cols := by
  unfold wrapIfPending
  split
  · exact rowDown_cols _
  · rfl

@[simp] theorem wrapIfPending_rows (scr : Screen) : (wrapIfPending scr).rows = scr.rows := by
  unfold wrapIfPending
  split
  · exact rowDown_rows _
  · rfl

section Moves

variable (h : Shows scr cur) (hsize : scr.Sized) (hin : scr.Holds cur)

include h hsize hin

theorem Shows.rowDown : Shows (rowDown scr) (cur.down scr.rows.toNat) := by
  have hrow : cur.row < 1000 := lt_trans hin.row hsize.rows
  unfold EfiSshServer.rowDown Cursor.down
  rw [h.row]
  by_cases hnext : cur.row + 1 < scr.rows.toNat
  · rw [if_pos ((succ_lt_iff hrow _).mpr hnext), if_pos hnext, ofNat_succ]
    exact ⟨h.col, rfl, h.pending⟩
  · rw [if_neg fun hlt => hnext ((succ_lt_iff hrow _).mp hlt), if_neg hnext]
    exact h

theorem Shows.tabColumn : tabColumn scr = Int32.ofNat (cur.tab scr.cols.toNat).col := by
  have hcol : cur.col < 1000 := lt_trans hin.col hsize.cols
  have hcols := hsize.cols
  have hpos := Nat.zero_lt_of_lt hin.col
  have hpast : (Int32.ofNat ((cur.col / 8 + 1) * 8)).toUInt32 ≥ scr.cols ↔
      scr.cols.toNat ≤ (cur.col / 8 + 1) * 8 := by
    rw [ge_iff_le, UInt32.le_iff_toNat_le, Int32.toUInt32_ofNat', UInt32.toNat_ofNat',
      Nat.mod_eq_of_lt (by simp; omega)]
  simp only [EfiSshServer.tabColumn, Cursor.tab]
  rw [h.col, ofNat_tab cur.col hcol]
  by_cases hedge : scr.cols.toNat ≤ (cur.col / 8 + 1) * 8
  · rw [if_pos (hpast.mpr hedge), toInt32_eq_ofNat, ofNat_pred hpos, Nat.min_eq_right (by omega)]
  · rw [if_neg fun hge => hedge (hpast.mp hge), Nat.min_eq_left (by omega)]

theorem Shows.wrapIfPending : Shows (wrapIfPending scr) (cur.wrap scr.rows.toNat) := by
  have hstart : Shows (scr.setColumn 0) { cur with col := 0 } := ⟨rfl, h.row, h.pending⟩
  have hdown := hstart.rowDown ⟨hsize.cols, hsize.rows⟩ ⟨Nat.zero_lt_of_lt hin.col, hin.row⟩
  unfold EfiSshServer.wrapIfPending Cursor.wrap
  rw [h.pending]
  split
  · exact ⟨hdown.col, hdown.row, rfl⟩
  · exact h

theorem Shows.advance : Shows (advance scr) (cur.advance scr.cols.toNat) := by
  have hcol : cur.col < 1000 := lt_trans hin.col hsize.cols
  have hin' := hin.col
  unfold EfiSshServer.advance Cursor.advance
  rw [h.col]
  by_cases hnext : cur.col + 1 < scr.cols.toNat
  · have hlt := (succ_lt_iff hcol scr.cols).mpr hnext
    rw [if_neg (by simpa using hlt), if_pos hnext, ofNat_succ]
    exact ⟨rfl, h.row, h.pending⟩
  · have hge := mt (succ_lt_iff hcol scr.cols).mp hnext
    rw [if_pos (by simpa using hge), if_neg hnext, toInt32_eq_ofNat, ofNat_pred (by omega)]
    refine ⟨?_, h.row, rfl⟩
    exact congrArg Int32.ofNat (by dsimp only; omega)

/-- A character moves the cursor fields as it moves the cursor. -/
theorem Shows.printChar (c : UInt16) :
    Shows (printChar c scr).1 (charMove scr.cols.toNat scr.rows.toNat c cur) := by
  unfold EfiSshServer.printChar charMove
  split
  · have hstart : Shows ((scr.setColumn 0).setWrap false) cur.carriageReturn := ⟨rfl, h.row, rfl⟩
    have hdown := hstart.rowDown ⟨hsize.cols, hsize.rows⟩ hin.carriageReturn
    exact ⟨hdown.col, hdown.row, hdown.pending.trans (Cursor.down_pending _)⟩
  split
  · exact ⟨rfl, h.row, rfl⟩
  split
  · have hcol : cur.col < 1000 := lt_trans hin.col hsize.cols
    rw [h.col]
    by_cases hpos : 0 < cur.col
    · rw [if_pos ((ofNat_pos hcol).mpr hpos), ofNat_pred hpos]
      exact ⟨rfl, h.row, rfl⟩
    · rw [if_neg fun hgt => hpos ((ofNat_pos hcol).mp hgt)]
      refine ⟨?_, h.row, rfl⟩
      refine h.col.trans (congrArg Int32.ofNat ?_)
      simp only [Cursor.backspace]
      omega
  split
  · exact ⟨h.tabColumn hsize hin, h.row, rfl⟩
  split
  · exact h
  · have hwrap := h.wrapIfPending hsize hin
    have hadvance := hwrap.advance
      ⟨by rw [wrapIfPending_cols]; exact hsize.cols, by rw [wrapIfPending_rows]; exact hsize.rows⟩
      (by rw [Screen.Holds, wrapIfPending_cols, wrapIfPending_rows]; exact hin.wrap)
    rw [wrapIfPending_cols] at hadvance
    exact hadvance

end Moves

theorem printChar_cols (c : UInt16) (scr : Screen) : (printChar c scr).1.cols = scr.cols := by
  unfold printChar advance
  repeat' split
  all_goals first | rfl | exact rowDown_cols _ | exact wrapIfPending_cols _

theorem printChar_rows (c : UInt16) (scr : Screen) : (printChar c scr).1.rows = scr.rows := by
  unfold printChar advance
  repeat' split
  all_goals first | rfl | exact rowDown_rows _ | exact wrapIfPending_rows _

/-- A position that `ShimSetCursor` accepts. -/
theorem shows_position {column row : UInt64} (hsize : scr.Sized)
    (hcol : column < scr.cols.toUInt64) (hrow : row < scr.rows.toUInt64) :
    Shows (((scr.setColumn column.toUInt32.toInt32).setRow row.toUInt32.toInt32).setWrap false)
        ⟨column.toNat, row.toNat, false⟩ ∧
      scr.Holds ⟨column.toNat, row.toNat, false⟩ := by
  rw [UInt64.lt_iff_toNat_lt, UInt32.toNat_toUInt64] at hcol hrow
  have hcols := hsize.cols
  have hrows := hsize.rows
  have hcast : ∀ x : UInt64, x.toNat < 1000 → x.toUInt32.toInt32 = Int32.ofNat x.toNat := by
    intro x hx
    rw [toInt32_eq_ofNat, UInt64.toNat_toUInt32, Nat.mod_eq_of_lt (by omega)]
  exact ⟨⟨hcast column (by omega), hcast row (by omega), rfl⟩, hcol, hrow⟩

theorem shows_home (scr : Screen) :
    Shows (((scr.setColumn 0).setRow 0).setWrap false) ⟨0, 0, false⟩ :=
  ⟨rfl, rfl, rfl⟩

/-! ## The bytes emitted -/

section Emitted

variable {σ : Type} {ssh : Ssh σ} {fw : Firmware σ} {rounds : ℕ} {s : Shim σ} {con : Console σ}

/-- The bytes `Flush` has taken out of the buffer. -/
def flushedBytes : List (ShimEvent σ) → Bytes
  | [] => []
  | .flushed bytes :: log => flushedBytes log ++ bytes
  | _ :: log => flushedBytes log

/-- All bytes emitted so far. -/
def emitted (con : Console σ) : Bytes := flushedBytes con.log ++ con.outBuf

/-- What emitting `bytes` does: the screen stays. -/
structure Emitting (bytes : Bytes) (con con' : Console σ) : Prop where
  screen : con'.screen = con.screen
  emitted : emitted con' = emitted con ++ bytes

theorem Emitting.refl (con : Console σ) : Emitting [] con con := ⟨rfl, (List.append_nil _).symm⟩

theorem Emitting.trans {con' con'' : Console σ} {xs ys : Bytes} (h : Emitting xs con con')
    (h' : Emitting ys con' con'') : Emitting (xs ++ ys) con con'' :=
  ⟨h'.screen.trans h.screen, by rw [h'.emitted, h.emitted, List.append_assoc]⟩

theorem deliver_flushed (bytes : Bytes) :
    wp (deliver ssh rounds bytes) (fun _ t => flushedBytes t.log = flushedBytes s.log)
      anyStop s := by
  simp only [deliver, wp_bind, wp_get]
  refine wp.ite (fun _ => rfl) fun _ => ?_
  simp only [wp_bind]
  refine wp_call_of_ok fun ok host _ => ?_
  exact wp.ite (fun _ => rfl) fun _ => rfl

theorem mirror_flushed (bytes : Bytes) (s : Shim σ) :
    flushedBytes (mirror fw bytes s).log = flushedBytes s.log := by
  have hnotes : ∀ (texts : List (List UInt16)) (log : List (ShimEvent σ)),
      flushedBytes ((texts.map .mirrored) ++ log) = flushedBytes log := by
    intro texts log
    induction texts with
    | nil => rfl
    | cons text texts ih => exact ih
  unfold mirror
  split
  · dsimp only
    rw [← List.map_reverse, hnotes]
  · rfl

theorem flush_emitting : wp (flush ssh fw rounds) (fun _ => Emitting [] con) anyStop con := by
  simp only [flush, wp_bind, wp_get]
  refine wp.ite (fun _ => .refl con) fun _ => ?_
  simp only [wp_bind, wp_onShim]
  refine wp.imp (deliver_flushed _) fun _ t h => ?_
  simp only [wp_modify, ShimM.wp_record]
  refine ⟨rfl, ?_⟩
  simp only [emitted, flushedBytes, mirror_flushed, h, List.append_nil]

theorem emitByte_emitting (b : UInt8) :
    wp (emitByte ssh fw rounds b) (fun _ => Emitting [b] con) anyStop con := by
  have hstore : ∀ con : Console σ, Emitting [b] con { con with outBuf := con.outBuf ++ [b] } :=
    fun con => ⟨rfl, (List.append_assoc _ _ _).symm⟩
  simp only [emitByte, wp_bind, wp_get]
  refine wp.ite (fun _ => ?_) fun _ => hstore con
  simp only [wp_bind]
  exact wp.imp flush_emitting fun _ con' h => h.trans (hstore con')

/-- The spec of `Emit` and its siblings. -/
theorem emit_emitting (bytes : Bytes) :
    wp (emit ssh fw rounds bytes) (fun _ => Emitting bytes con) anyStop con := by
  induction bytes generalizing con with
  | nil => exact .refl con
  | cons b bs ih =>
      simp only [emit, wp_bind]
      refine wp.imp (emitByte_emitting b) fun _ con' h => ?_
      exact wp.imp ih fun _ _ h' => h.trans h'

theorem pollSometimes_emitting :
    wp (pollSometimes ssh) (fun _ => Emitting [] con) anyStop con := by
  have hsame : ∀ (host : σ) (outPoll : UInt64), Emitting [] con
      { con with host := host, outPoll := outPoll } := fun _ _ => ⟨rfl, (List.append_nil _).symm⟩
  simp only [pollSometimes, wp_bind, wp_modify, wp_get]
  refine wp.ite (fun _ => ?_) fun _ => hsame _ _
  simp only [wp_bind, wp_onShim]
  refine wp_call_of_ok fun ok host _ => ?_
  exact wp.ite (fun _ => hsame _ _) fun _ => ⟨rfl, (List.append_nil _).symm⟩

end Emitted

end EfiSshServer
