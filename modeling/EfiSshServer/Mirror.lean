import EfiSshServer.Echo

/-!
# What the real screen shows of a Shell without a client

`Flush` shows what it can on the real screen once the client is gone: the printable
bytes and the newlines of its buffer.  The buffer holds the bytes as they are sent, so
that of an escape sequence all bytes but the first are shown (`mirror_shows_iff`).

The strings are joined by `mirroredText`.  A call shows its text and the printable part of
its escape sequences, in whatever pieces the buffers are flushed (`runConsole_shown`).
-/

namespace EfiSshServer

open StateProgram ShimM Utf8

variable {σ : Type} {ssh : Ssh σ} {fw : Firmware σ} {rounds : ℕ} {con con' con'' : Console σ}

/-! ## What is shown of the bytes -/

/-- What `Flush` shows of a byte. -/
def shownByte (b : UInt8) : List UInt16 :=
  if 0x20 ≤ b ∧ b < 0x7f then [b.toUInt16]
  else if b = byteOf '\n' then [charCarriageReturn, charLinefeed]
  else []

def shownOf (bytes : Bytes) : List UInt16 := bytes.flatMap shownByte

/-- The line buffer of `Flush` cuts the text, and loses nothing. -/
theorem mirrorChunks_flatten (bytes : Bytes) (tmp : List UInt16) :
    (mirrorChunks bytes tmp).flatten = tmp ++ shownOf bytes := by
  induction bytes generalizing tmp with
  | nil =>
    rw [mirrorChunks]
    split
    · next hnil => rw [hnil]; rfl
    · simp [shownOf]
  | cons b bs ih =>
    have hbyte : (if 0x20 ≤ b ∧ b < 0x7f then tmp ++ [b.toUInt16]
        else if b = byteOf '\n' then tmp ++ [charCarriageReturn, charLinefeed] else tmp) =
        tmp ++ shownByte b := by
      unfold shownByte
      split
      · rfl
      split
      · rfl
      · exact (List.append_nil tmp).symm
    rw [mirrorChunks]
    simp only [hbyte]
    have hall : tmp ++ shownOf (b :: bs) = tmp ++ shownByte b ++ shownOf bs := by
      rw [shownOf, List.flatMap_cons, List.append_assoc]
      rfl
    split
    · rw [List.flatten_cons, ih, List.nil_append, hall]
    · rw [ih, hall]

/-- What is wanted of a character of the Shell. -/
def shownChar (c : UInt16) : List UInt16 :=
  if 0x20 ≤ c ∧ c < 0x7f then [c]
  else if c = charLinefeed then [charCarriageReturn, charLinefeed]
  else []

theorem shownByte_high {b : UInt8} (h : 0x7F ≤ b) : shownByte b = [] := by
  have hprint : ¬ (0x20 ≤ b ∧ b < 0x7f) := fun hb => absurd hb.2 (UInt8.not_lt.mpr h)
  have hnewline : b ≠ byteOf '\n' := by
    rintro rfl
    exact absurd h (by decide)
  rw [shownByte, if_neg hprint, if_neg hnewline]

/-- No byte of a sequence of two or three is shown. -/
theorem shownOf_complete {seq : List UInt8} (h : Complete seq) : shownOf seq = [] := by
  have hhigh : ∀ b ∈ seq, shownByte b = [] := by
    intro b hb
    rw [h.eq_cons] at hb
    rcases List.mem_cons.mp hb with rfl | hb
    · exact shownByte_high (UInt8.le_trans (by decide) (announced_pos_iff.mp h.lead))
    · exact shownByte_high (UInt8.le_trans (by decide) (h.conts b hb).1)
  rw [shownOf, List.flatMap_eq_nil_iff]
  exact hhigh

theorem shownByte_toUInt8 {c : UInt16} (h : c < 0x80) : shownByte c.toUInt8 = shownChar c := by
  have hbyte : c.toUInt8.toNat = c.toNat := by
    have hlt : c.toNat < 128 := h
    rw [UInt16.toNat_toUInt8]
    omega
  have hunit : c.toUInt8.toUInt16 = c := by
    rw [← UInt16.toNat_inj, UInt8.toNat_toUInt16, hbyte]
  have hprint : (0x20 ≤ c.toUInt8 ∧ c.toUInt8 < 0x7f) ↔ (0x20 ≤ c ∧ c < 0x7f) := by
    rw [UInt8.le_iff_toNat_le, UInt8.lt_iff_toNat_lt, hbyte]
    rfl
  have hnewline : c.toUInt8 = byteOf '\n' ↔ c = charLinefeed := by
    rw [← UInt8.toNat_inj, ← UInt16.toNat_inj, hbyte]
    rfl
  simp only [shownByte, shownChar, hprint, hnewline, hunit]

theorem shownOf_utf8 (c : UInt16) : shownOf (utf8 c) = shownChar c := by
  by_cases hascii : c < 0x80
  · rw [utf8, if_pos hascii, shownOf, List.flatMap_singleton, shownByte_toUInt8 hascii]
  · have hle := UInt16.not_lt.mp hascii
    have hprint : ¬ (0x20 ≤ c ∧ c < 0x7f) := fun h => hascii (UInt16.lt_trans h.2 (by decide))
    have hnewline : c ≠ charLinefeed := by
      rintro rfl
      exact absurd hle (by decide)
    rw [shownOf_complete (complete_utf8 hle).1, shownChar, if_neg hprint, if_neg hnewline]

/-- Of what a character emits, exactly what is wanted is shown. -/
theorem shownOf_printChar (c : UInt16) (scr : Screen) :
    shownOf (printChar c scr).2 = shownChar c := by
  unfold printChar
  split
  · next h => rw [h]; rfl
  split
  · next h => rw [h]; rfl
  split
  · next h =>
    rw [h]
    split
    · rfl
    · rfl
  split
  · next h => rw [h]; rfl
  split
  · next hcontrol =>
    have hascii : c < 0x80 := UInt16.lt_trans hcontrol (by decide)
    rw [shownOf, List.flatMap_singleton, shownByte_toUInt8 hascii]
  · exact shownOf_utf8 c

/-! ## What is shown of the calls -/

/-- The strings for the real screen, joined. -/
def mirroredText : List (ShimEvent σ) → List UInt16
  | [] => []
  | .mirrored text :: log => mirroredText log ++ text
  | _ :: log => mirroredText log

theorem mirroredText_append (news log : List (ShimEvent σ)) :
    mirroredText (news ++ log) = mirroredText log ++ mirroredText news := by
  induction news with
  | nil => exact (List.append_nil _).symm
  | cons e news ih =>
    cases e
    case mirrored text =>
      rw [List.cons_append, mirroredText, mirroredText, ih, List.append_assoc]
    all_goals exact ih

theorem mirroredText_mirrored (texts : List (List UInt16)) :
    mirroredText (texts.map .mirrored : List (ShimEvent σ)).reverse = texts.flatten := by
  induction texts with
  | nil => rfl
  | cons text texts ih =>
    rw [List.map_cons, List.reverse_cons, mirroredText_append, ih]
    rfl

/-- From one state without a client to another; behind what was still in the buffer, `text`
is shown, or will be. -/
structure Shown (text : List UInt16) (con con' : Console σ) : Prop where
  disconnected : con'.disconnected = true
  log : ∃ news, con'.log = news ++ con.log ∧
    mirroredText news ++ shownOf con'.outBuf = shownOf con.outBuf ++ text

theorem Shown.same (hgone : con.disconnected = true) (screen : Screen) (outPoll : UInt64) :
    Shown [] con { con with screen := screen, outPoll := outPoll } :=
  ⟨hgone, [], rfl, (List.append_nil _).symm⟩

theorem Shown.trans {text text' : List UInt16} (h : Shown text con con')
    (h' : Shown text' con' con'') : Shown (text ++ text') con con'' := by
  obtain ⟨news, hlog, htext⟩ := h.log
  obtain ⟨news', hlog', htext'⟩ := h'.log
  refine ⟨h'.disconnected, news' ++ news, by rw [hlog', hlog, List.append_assoc], ?_⟩
  rw [mirroredText_append, List.append_assoc, htext', ← List.append_assoc, htext,
    List.append_assoc]

/-- Without a client every call returns. -/
def never : Stop → Prop := fun _ => False

section Calls

variable (hgone : con.disconnected = true) (hscreen : fw.hasConOut = true)

include hgone hscreen

theorem flush_shown : wp (flush ssh fw rounds)
    (fun _ con' => Shown [] con con' ∧ con'.outBuf = []) never con := by
  simp only [flush, wp_bind, wp_get]
  apply wp.ite
  · intro hempty
    exact ⟨.same hgone _ _, hempty⟩
  · intro _
    simp only [wp_bind, wp_onShim, deliver, wp_get]
    apply wp.ite
    · intro _
      simp only [wp_modify, ShimM.wp_record, wp_pure, mirror, if_pos (And.intro hgone hscreen)]
      have htext : mirroredText (.flushed con.outBuf ::
          ((mirrorChunks con.outBuf []).map .mirrored : List (ShimEvent σ)).reverse) =
          shownOf con.outBuf :=
        (mirroredText_mirrored _).trans (mirrorChunks_flatten _ _)
      exact ⟨⟨hgone, _, rfl, congrArg (· ++ []) htext⟩, trivial⟩
    · intro hconn
      exact absurd hgone hconn

theorem emitByte_shown (b : UInt8) : wp (emitByte ssh fw rounds b)
    (fun _ => Shown (shownByte b) con) never con := by
  have hstore : ∀ con : Console σ, con.disconnected = true →
      Shown (shownByte b) con { con with outBuf := con.outBuf ++ [b] } := by
    intro con hgone
    refine ⟨hgone, [], rfl, ?_⟩
    simp [mirroredText, shownOf]
  simp only [emitByte, wp_bind, wp_get]
  apply wp.ite
  · intro _
    simp only [wp_bind]
    refine wp.imp (flush_shown hgone hscreen) fun _ con' h => ?_
    exact h.1.trans (hstore con' h.1.disconnected)
  · intro _
    exact hstore con hgone

theorem emit_shown (bytes : Bytes) : wp (emit ssh fw rounds bytes)
    (fun _ => Shown (shownOf bytes) con) never con := by
  induction bytes generalizing con with
  | nil => exact .same hgone _ _
  | cons b bs ih =>
    simp only [emit, wp_bind]
    refine wp.imp (emitByte_shown hgone hscreen b) fun _ con' h => ?_
    refine wp.imp (ih h.disconnected) fun _ con'' h' => ?_
    exact h.trans h'

/-- An escape sequence, and the flush behind it. -/
theorem emit_flush_shown (bytes : Bytes) : wp (emit ssh fw rounds bytes) (fun _ =>
    wp (flush ssh fw rounds) (fun _ con' => Shown (shownOf bytes) con con' ∧ con'.outBuf = [])
      never) never con := by
  refine wp.imp (emit_shown hgone hscreen bytes) fun _ con₁ h₁ => ?_
  refine wp.imp (flush_shown h₁.disconnected hscreen) fun _ con₂ h₂ => ?_
  have h := h₁.trans h₂.1
  rw [List.append_nil] at h
  exact ⟨h, h₂.2⟩

theorem printString_shown (string : List UInt16) : wp (printString ssh fw rounds string)
    (fun _ => Shown (string.flatMap shownChar) con) never con := by
  induction string generalizing con with
  | nil => exact .same hgone _ _
  | cons c cs ih =>
    simp only [printString, wp_bind, wp_get]
    refine wp.imp (emit_shown hgone hscreen _) fun _ con₁ h₁ => ?_
    rw [shownOf_printChar] at h₁
    simp only [setScreen, wp_modify]
    have hmoved := h₁.trans (.same h₁.disconnected (printChar c con.screen).1 con₁.outPoll)
    rw [List.append_nil] at hmoved
    refine wp.imp (ih hmoved.disconnected) fun _ con₂ h₂ => ?_
    exact hmoved.trans h₂

theorem shimOutputString_shown (string : List UInt16) : wp (shimOutputString ssh fw rounds string)
    (fun _ con' => Shown (string.flatMap shownChar) con con' ∧ con'.outBuf = []) never con := by
  simp only [shimOutputString, pollSometimes, wp_bind, wp_modify, wp_get, wp_pure]
  apply wp.ite
  · rintro ⟨-, hconn⟩
    rw [hgone] at hconn
    cases hconn
  · intro _
    rw [wp_pure]
    have hcounted : Shown [] con _ := .same hgone con.screen (con.outPoll + 1)
    refine wp.imp (printString_shown hcounted.disconnected hscreen string) fun _ con₁ h₁ => ?_
    refine wp.imp (flush_shown h₁.disconnected hscreen) fun _ con₂ h₂ => ?_
    have h := (hcounted.trans h₁).trans h₂.1
    rw [List.append_nil, List.nil_append] at h
    exact ⟨h, h₂.2⟩

theorem shimClearScreen_shown : wp (shimClearScreen ssh fw rounds)
    (fun _ con' => Shown (shownOf clearBytes) con con' ∧ con'.outBuf = []) never con := by
  simp only [shimClearScreen, wp_bind, wp_pure]
  refine wp.imp (emit_shown hgone hscreen _) fun _ con₁ h₁ => ?_
  simp only [setScreen, wp_modify]
  have hmoved := h₁.trans
    (.same h₁.disconnected (((con₁.screen.setColumn 0).setRow 0).setWrap false) con₁.outPoll)
  refine wp.imp (flush_shown hmoved.disconnected hscreen) fun _ con₂ h₂ => ?_
  have h := hmoved.trans h₂.1
  rw [List.append_nil, List.append_nil] at h
  exact ⟨h, h₂.2⟩

end Calls

/-! ## Sequences of calls -/

/-- The calls of `SimpleTextOut`. -/
def ConsoleCall.isOutput : ConsoleCall → Bool
  | .outputString _ | .testString | .queryMode _ | .setMode _ | .setAttribute _ | .clearScreen
  | .setCursorPosition .. | .enableCursor _ | .outReset => true
  | _ => false

/-- What is wanted of a call. -/
def ConsoleCall.text : ConsoleCall → List UInt16
  | .outputString string => string.flatMap shownChar
  | _ => []

/-- The call emits no escape sequence of its own. -/
def ConsoleCall.IsPlain (scr : Screen) : ConsoleCall → Prop
  | .setMode modeNumber => modeNumber ≠ 0
  | .setAttribute value => value > 0x7F
  | .setCursorPosition column row => column ≥ scr.cols.toUInt64 ∨ row ≥ scr.rows.toUInt64
  | .clearScreen | .enableCursor _ | .outReset => False
  | _ => True

instance (scr : Screen) (call : ConsoleCall) : Decidable (call.IsPlain scr) := by
  cases call <;> unfold ConsoleCall.IsPlain <;> infer_instance

theorem shownOf_ne_nil {bytes : Bytes} (h : byteOf '[' ∈ bytes) : shownOf bytes ≠ [] := by
  intro hnil
  have hbracket := List.flatMap_eq_nil_iff.mp hnil _ h
  cases hbracket

theorem bracket_mem_attributeBytes (value : UInt64) : byteOf '[' ∈ attributeBytes value := by
  simp only [attributeBytes, List.mem_append]
  exact .inl (.inl (.inl (.inl (by decide))))

theorem bracket_mem_cursorBytes (column row : UInt64) : byteOf '[' ∈ cursorBytes column row := by
  simp only [cursorBytes, List.mem_append]
  exact .inl (.inl (.inl (.inl (by decide))))

/-- A call shows its text, and something more unless it is plain. -/
theorem runConsole_shown {call : ConsoleCall} (houtput : call.isOutput = true)
    (hgone : con.disconnected = true) (hscreen : fw.hasConOut = true) (hempty : con.outBuf = []) :
    wp (runConsole ssh fw rounds call) (fun _ con' => ∃ more,
      Shown (call.text ++ more) con con' ∧ con'.outBuf = [] ∧
        (more = [] ↔ call.IsPlain con.screen)) never con := by
  have hsame : ∀ screen, Shown [] con { con with screen := screen } := fun screen =>
    .same hgone screen con.outPoll
  have hquiet : ∀ {p : Prop} screen, p → ∃ more, Shown ([] ++ more) con
      { con with screen := screen } ∧ con.outBuf = [] ∧ (more = [] ↔ p) := fun screen hp =>
    ⟨[], hsame screen, hempty, iff_of_true rfl hp⟩
  -- a call that sets fields of the screen, and then emits a sequence
  have hloud : ∀ {p : Prop} {bytes : Bytes} (screen : Screen), byteOf '[' ∈ bytes → ¬ p →
      wp (emit ssh fw rounds bytes) (fun _ => wp (flush ssh fw rounds) (fun _ con' => ∃ more,
        Shown ([] ++ more) con con' ∧ con'.outBuf = [] ∧ (more = [] ↔ p)) never) never
        { con with screen := screen } := by
    intro p bytes screen hmem hp
    refine wp.imp (emit_flush_shown (hsame screen).disconnected hscreen bytes) fun _ con₁ h₁ => ?_
    refine wp.imp h₁ fun _ con₂ h₂ => ?_
    exact ⟨shownOf bytes, (hsame screen).trans h₂.1, h₂.2, iff_of_false (shownOf_ne_nil hmem) hp⟩
  have hclearBytes : shownOf clearBytes ≠ [] := shownOf_ne_nil (by decide)
  have hclear : ∀ {p : Prop} (screen : Screen), ¬ p → wp (shimClearScreen ssh fw rounds)
      (fun _ con' => ∃ more, Shown ([] ++ more) con con' ∧ con'.outBuf = [] ∧
        (more = [] ↔ p)) never { con with screen := screen } := by
    intro p screen hp
    refine wp.imp (shimClearScreen_shown hgone hscreen) fun _ con₁ h₁ => ?_
    exact ⟨_, (hsame screen).trans h₁.1, h₁.2, iff_of_false hclearBytes hp⟩
  cases call <;> simp only [runConsole, wp_bind, wp_pure]
  case outputString string =>
    refine wp.imp (shimOutputString_shown hgone hscreen string) fun _ con₁ h₁ => ?_
    exact ⟨[], by rw [List.append_nil]; exact h₁.1, h₁.2, iff_of_true rfl trivial⟩
  case testString => exact hquiet con.screen trivial
  case queryMode modeNumber =>
    exact wp.ite (fun _ => hquiet con.screen trivial) fun _ => hquiet _ trivial
  case setMode modeNumber =>
    exact wp.ite (fun hmode => hquiet con.screen hmode) fun hmode => hclear _ hmode
  case setAttribute value =>
    refine wp.ite (fun hvalue => hquiet con.screen hvalue) fun hvalue => ?_
    simp only [setScreen, wp_bind, wp_modify, wp_pure]
    exact hloud _ (bracket_mem_attributeBytes value) hvalue
  case clearScreen => exact hclear con.screen not_false
  case setCursorPosition column row =>
    refine wp.ite (fun hreject => hquiet con.screen hreject) fun hreject => ?_
    simp only [setScreen, wp_bind, wp_modify, wp_pure]
    exact hloud _ (bracket_mem_cursorBytes column row) hreject
  case enableCursor visible =>
    simp only [shimEnableCursor, setScreen, wp_bind, wp_modify, wp_pure]
    refine hloud _ ?_ not_false
    cases visible <;> decide
  case outReset =>
    simp only [shimOutReset, setScreen, wp_bind, wp_modify]
    refine wp.imp (emit_flush_shown (hsame _).disconnected hscreen _) fun _ con₁ h₁ => ?_
    refine wp.imp h₁ fun _ con₂ h₂ => ?_
    refine wp.imp (shimClearScreen_shown h₂.1.disconnected hscreen) fun _ con₃ h₃ => ?_
    have hmore := List.append_ne_nil_of_right_ne_nil
      (shownOf (ascii "\x1b[0m\x1b[?25h")) hclearBytes
    have hshown := ((hsame _).trans h₂.1).trans h₃.1
    rw [List.nil_append] at hshown
    exact ⟨_, hshown, h₃.2, iff_of_false hmore not_false⟩
  all_goals cases houtput

/-! ## The buffer between calls -/

theorem flush_outBuf : wp (flush ssh fw rounds) (fun _ con' => con'.outBuf = []) anyStop con := by
  simp only [flush, wp_bind, wp_get]
  apply wp.ite
  · exact id
  · intro _
    simp only [wp_bind]
    refine wp.imp wp.trivial fun _ con₁ _ => ?_
    refine wp.imp wp.trivial fun _ con₂ _ => ?_
    refine wp.imp wp.trivial fun _ con₃ _ => ?_
    rfl

theorem shimClearScreen_outBuf :
    wp (shimClearScreen ssh fw rounds) (fun _ con' => con'.outBuf = []) anyStop con := by
  simp only [shimClearScreen, wp_bind, wp_pure]
  refine wp.imp wp.trivial fun _ con₁ _ => ?_
  refine wp.imp wp.trivial fun _ con₂ _ => ?_
  exact flush_outBuf

/-- A call that has returned has flushed what it emitted. -/
theorem runConsole_outBuf (call : ConsoleCall) (hempty : con.outBuf = []) :
    wp (runConsole ssh fw rounds call) (fun _ con' => con'.outBuf = []) anyStop con := by
  have hflush : ∀ {con : Console σ} (bytes : Bytes), wp (emit ssh fw rounds bytes) (fun _ =>
      wp (flush ssh fw rounds) (fun _ con' => con'.outBuf = []) anyStop) anyStop con :=
    fun bytes => wp.imp wp.trivial fun _ _ _ => flush_outBuf
  have hinput : ∀ {α : Type} (m : ShimM σ α),
      wp (onShim m) (fun _ con' => con'.outBuf = []) anyStop con := by
    intro α m
    rw [wp_onShim]
    exact wp.imp wp.trivial fun _ _ _ => hempty
  cases call <;> simp only [runConsole, wp_bind, wp_pure]
  case outputString string =>
    simp only [shimOutputString, wp_bind, wp_pure]
    refine wp.imp wp.trivial fun _ con₁ _ => ?_
    refine wp.imp wp.trivial fun _ con₂ _ => ?_
    exact flush_outBuf
  case testString => exact hempty
  case queryMode modeNumber => exact wp.ite (fun _ => hempty) fun _ => hempty
  case setMode modeNumber => exact wp.ite (fun _ => hempty) fun _ => shimClearScreen_outBuf
  case setAttribute value =>
    refine wp.ite (fun _ => hempty) fun _ => ?_
    simp only [setScreen, wp_bind, wp_modify, wp_pure]
    exact hflush _
  case clearScreen => exact shimClearScreen_outBuf
  case setCursorPosition column row =>
    refine wp.ite (fun _ => hempty) fun _ => ?_
    simp only [setScreen, wp_bind, wp_modify, wp_pure]
    exact hflush _
  case enableCursor visible =>
    simp only [shimEnableCursor, setScreen, wp_bind, wp_modify, wp_pure]
    exact hflush _
  case outReset =>
    simp only [shimOutReset, setScreen, wp_bind, wp_modify]
    refine wp.imp wp.trivial fun _ con₁ _ => ?_
    refine wp.imp wp.trivial fun _ con₂ _ => ?_
    exact shimClearScreen_outBuf
  case inReset => exact hinput _
  case readKey => exact hinput _
  case readKeyEx given => exact hinput _
  case waitKey => exact hinput _
  case registerNotify kd fn wanted => exact hinput _
  case unregisterNotify handle => exact hinput _

theorem ShimReachable.outBuf {host : σ} (h : ShimReachable ssh fw host con) : con.outBuf = [] := by
  obtain ⟨con₀, ⟨rounds, hinstall⟩, hruns⟩ := h
  have hfirst : wp (shimInstall ssh fw rounds) (fun _ con' => con'.outBuf = []) anyStop
      (zeroConsole host) := by
    simp only [shimInstall, refreshSize, setScreen, wp_bind, wp_modify, wp_pure]
    refine wp.imp wp.trivial fun _ con₁ _ => ?_
    exact flush_outBuf
  induction hruns with
  | none => exact hfirst.ok hinstall
  | call _ rounds call hrun ih => exact (runConsole_outBuf call ih).ok hrun

/-! ## The mirror -/

section Mirror

variable (ssh : Ssh σ) (fw : Firmware σ) (rounds : ℕ)

def runOutputs : List ConsoleCall → ConsoleM σ Unit
  | [] => return ()
  | call :: calls => do
      runConsole ssh fw rounds call
      runOutputs calls

/-- Every call is plain on the screen that it finds. -/
def AllPlain : Console σ → List ConsoleCall → Prop
  | _, [] => True
  | con, call :: calls => call.IsPlain con.screen ∧
      ∀ con', runConsole ssh fw rounds call con = .ok ((), con') → AllPlain con' calls

end Mirror

variable (ssh rounds) in
/-- The text of the calls is shown, and is all that is shown if the calls are plain; if they
are not, it is more. -/
theorem runOutputs_shown (calls : List ConsoleCall) (houtput : ∀ call ∈ calls, call.isOutput = true)
    (hgone : con.disconnected = true) (hscreen : fw.hasConOut = true) (hempty : con.outBuf = []) :
    ∃ con' news, runOutputs ssh fw rounds calls con = .ok ((), con') ∧
      con'.log = news ++ con.log ∧
      (AllPlain ssh fw rounds con calls → mirroredText news = calls.flatMap ConsoleCall.text) ∧
      (¬ AllPlain ssh fw rounds con calls →
        (calls.flatMap ConsoleCall.text).length < (mirroredText news).length) := by
  induction calls generalizing con with
  | nil => exact ⟨con, [], rfl, rfl, fun _ => rfl, fun hnot => absurd trivial hnot⟩
  | cons call calls ih =>
    obtain ⟨hcall, hcalls⟩ := List.forall_mem_cons.mp houtput
    have hreturns : wp (runConsole ssh fw rounds call) _ never con :=
      runConsole_shown hcall hgone hscreen hempty
    obtain ⟨_, con₁, hrun, more, hshown, hempty₁, hplain⟩ := hreturns.returns
    obtain ⟨news, hlog, htext⟩ := hshown.log
    rw [hempty, hempty₁] at htext
    have htext : mirroredText news = call.text ++ more := by simpa [shownOf] using htext
    obtain ⟨con₂, news', hruns, hlog', hall, hsome⟩ := ih hcalls hshown.disconnected hempty₁
    -- the run is plain if this call shows nothing more than its text and the rest is plain
    have hrest : AllPlain ssh fw rounds con (call :: calls) ↔
        more = [] ∧ AllPlain ssh fw rounds con₁ calls := by
      rw [AllPlain, hplain]
      refine and_congr_right fun _ => ⟨fun h => h con₁ hrun, fun h con' hrun' => ?_⟩
      rw [hrun] at hrun'
      cases hrun'
      exact h
    refine ⟨con₂, news' ++ news, ?_, by rw [hlog', hlog, List.append_assoc], ?_, ?_⟩
    · rw [runOutputs, bind_ok hrun]
      exact hruns
    · intro h
      obtain ⟨hmore, hrest⟩ := hrest.mp h
      rw [mirroredText_append, htext, hmore, hall hrest, List.append_nil, List.flatMap_cons]
    · intro h
      rw [hrest, not_and_or] at h
      rw [mirroredText_append, htext, List.flatMap_cons, List.length_append, List.length_append,
        List.length_append]
      -- one of the calls shows more than its text, this one or a later one
      by_cases hplain' : AllPlain ssh fw rounds con₁ calls
      · have hmore := List.length_pos_of_ne_nil (h.resolve_right (not_not.mpr hplain'))
        rw [hall hplain']
        omega
      · have hlt := hsome hplain'
        omega

/-- The real screen shows the text of the Shell and nothing else, if and only if no call
emits an escape sequence. -/
theorem mirror_shows_iff {host : σ} (h : ShimReachable ssh fw host con)
    (hgone : con.disconnected = true) (hscreen : fw.hasConOut = true) (rounds : ℕ)
    (calls : List ConsoleCall) (houtput : ∀ call ∈ calls, call.isOutput = true) :
    ∃ con' news, runOutputs ssh fw rounds calls con = .ok ((), con') ∧
      con'.log = news ++ con.log ∧
      (mirroredText news = calls.flatMap ConsoleCall.text ↔ AllPlain ssh fw rounds con calls) := by
  obtain ⟨con', news, hrun, hlog, hall, hsome⟩ :=
    runOutputs_shown ssh rounds calls houtput hgone hscreen h.outBuf
  refine ⟨con', news, hrun, hlog, fun htext => ?_, hall⟩
  by_contra hnot
  have hlt := hsome hnot
  rw [htext] at hlt
  exact lt_irrefl _ hlt

/-- A client that is lost; then a line of text, and a colour that the shim refuses. -/
theorem mirror_shows_line : ∃ (host : Server) (con con' : Console Server),
    ShimReachable (serverSsh (plainEnv fun _ _ => true)) quietFirmware host con ∧
      ∃ news, runOutputs (serverSsh (plainEnv fun _ _ => true)) quietFirmware 0
          [.outputString [0x68, 0x69, 0xE9, charLinefeed], .setAttribute 0x80] con =
            .ok ((), con') ∧
        con'.log = news ++ con.log ∧
        mirroredText news = [0x68, 0x69, charCarriageReturn, charLinefeed] := by
  obtain ⟨host, con, -, -, hreach, hgone⟩ := exists_shim (E := plainEnv fun _ _ => true)
    (P := fun con => con.disconnected = true) [.waitKey]
    [.data (clientShell "root" "secret"), .lost] (by decide +kernel)
  obtain ⟨con', news, hrun, hlog, hiff⟩ := mirror_shows_iff hreach hgone rfl 0
    [.outputString [0x68, 0x69, 0xE9, charLinefeed], .setAttribute 0x80] (by decide)
  have hrefused : (0x80 : UInt64) > 0x7F := by decide
  exact ⟨host, con, con', hreach, news, hrun, hlog,
    hiff.mpr ⟨trivial, fun _ _ => ⟨hrefused, fun _ _ => trivial⟩⟩⟩

/-- Of the sequence for light grey on black, all but its first byte is shown. -/
theorem mirror_shows_sequence : ∃ (host : Server) (con con' : Console Server),
    ShimReachable (serverSsh (plainEnv fun _ _ => true)) quietFirmware host con ∧
      con.disconnected = true ∧
      ∃ news, runOutputs (serverSsh (plainEnv fun _ _ => true)) quietFirmware 0
          [.setAttribute 0x07] con = .ok ((), con') ∧
        con'.log = news ++ con.log ∧
        mirroredText news = (ascii "[0;37;40m").map UInt8.toUInt16 ∧
        mirroredText news ≠ [ConsoleCall.setAttribute 0x07].flatMap ConsoleCall.text := by
  obtain ⟨host, con, -, -, hreach, hgone, hnone, hshown⟩ :=
    exists_shim (E := plainEnv fun _ _ => true)
      (P := fun con => con.disconnected = true ∧ mirroredText con.log = [] ∧
        ((runOutputs (serverSsh (plainEnv fun _ _ => true)) quietFirmware 0
          [.setAttribute 0x07] con).toOption.any fun out => decide
            (mirroredText out.2.log = (ascii "[0;37;40m").map UInt8.toUInt16)) = true) [.waitKey]
      [.data (clientShell "root" "secret"), .data [], .lost] (by decide +kernel)
  obtain ⟨⟨_, con'⟩, hrun, htext⟩ := exists_ok hshown
  have hscreen : quietFirmware.hasConOut = true := rfl
  obtain ⟨con₁, news, hrun₁, hlog, -⟩ := runOutputs_shown (serverSsh (plainEnv fun _ _ => true)) 0
    [.setAttribute 0x07] (by decide) hgone hscreen hreach.outBuf
  rw [hrun] at hrun₁
  cases hrun₁
  have htext : mirroredText con'.log = (ascii "[0;37;40m").map UInt8.toUInt16 := htext
  rw [hlog, mirroredText_append, hnone] at htext
  have htext : mirroredText news = (ascii "[0;37;40m").map UInt8.toUInt16 := htext
  refine ⟨host, con, con', hreach, hgone, news, hrun, hlog, htext, ?_⟩
  rw [htext]
  decide

end EfiSshServer
