import EfiSshServer.Shim

/-!
# The output side of the shim, and its runs

What a character does to the cursor model and which bytes it emits is a function of
the screen, `printChar`; `emit` puts the bytes through the output buffer.
`ConsoleCall` lists the calls the Shell can make, and `ConsoleRuns` their sequences.
-/

namespace EfiSshServer

open StateProgram RingBuffer ShimM

variable {σ : Type}

/-! ## The output buffer -/

/-- A program of the input side. -/
def onShim {α : Type} (m : ShimM σ α) : ConsoleM σ α :=
  zoom Console.toShim (fun t s => { s with toShim := t }) m

/-- The `SshWrite` of `Flush`. -/
def deliver (ssh : Ssh σ) (rounds : ℕ) (bytes : Bytes) : ShimM σ Unit := do
  let before ← get
  if before.disconnected then return ()
  else
    let ok ← call (ssh.write rounds bytes)
    record (.wrote bytes ok)
    if ok then return () else lose .write before.host

/-- The strings `Flush` shows on the real screen; `tmp` is its line buffer. -/
def mirrorChunks : Bytes → (tmp : List UInt16) → List (List UInt16)
  | [], tmp => if tmp = [] then [] else [tmp]
  | b :: bs, tmp =>
      let tmp :=
        if 0x20 ≤ b ∧ b < 0x7f then tmp ++ [b.toUInt16]
        else if b = byteOf '\n' then tmp ++ [charCarriageReturn, charLinefeed]
        else tmp
      if tmp.length ≥ 120 then tmp :: mirrorChunks bs [] else mirrorChunks bs tmp

def mirror (fw : Firmware σ) (bytes : Bytes) (s : Shim σ) : Shim σ :=
  if s.disconnected = true ∧ fw.hasConOut = true then
    { s with log := ((mirrorChunks bytes []).map .mirrored).reverse ++ s.log }
  else s

def flush (ssh : Ssh σ) (fw : Firmware σ) (rounds : ℕ) : ConsoleM σ Unit := do
  let bytes := (← get).outBuf
  if bytes = [] then return ()
  else
    onShim (deliver ssh rounds bytes)
    onShim (modify (mirror fw bytes))
    onShim (record (.flushed bytes))
    modify fun s => { s with outBuf := [] }

def emitByte (ssh : Ssh σ) (fw : Firmware σ) (rounds : ℕ) (b : UInt8) : ConsoleM σ Unit := do
  if (← get).outBuf.length ≥ shimOutBuf then flush ssh fw rounds
  modify fun s => { s with outBuf := s.outBuf ++ [b] }

/-- `EmitByte` on one byte after the other. -/
def emit (ssh : Ssh σ) (fw : Firmware σ) (rounds : ℕ) : Bytes → ConsoleM σ Unit
  | [] => pure ()
  | b :: bs => do
      emitByte ssh fw rounds b
      emit ssh fw rounds bs

/-- The digits of `v` as `EmitNum` stores them in `tmp`, lowest first. -/
def numDigits : (slots v : ℕ) → Bytes
  | 0, _ => []
  | slots + 1, v =>
      UInt8.ofNat ((byteOf '0').toNat + v % 10) ::
        if v / 10 = 0 then [] else numDigits slots (v / 10)

/-- `sizeof(tmp)` in `EmitNum`. -/
abbrev numBuf : ℕ := 12

/-- The bytes of `EmitNum`. -/
def num (v : ℕ) : Bytes := (numDigits numBuf v).reverse

/-- The bytes of `EmitUtf8`. -/
def utf8 (c : UInt16) : Bytes :=
  let tail (bits : UInt16) : UInt8 := ((0x80 : UInt16) ||| (bits &&& 0x3F)).toUInt8
  if c < 0x80 then [c.toUInt8]
  else if c < 0x800 then [((0xC0 : UInt16) ||| (c >>> 6)).toUInt8, tail c]
  else [((0xE0 : UInt16) ||| (c >>> 12)).toUInt8, tail (c >>> 6), tail c]

/-! ## The cursor model -/

namespace Screen

def setColumn (scr : Screen) (col : Int32) : Screen :=
  { scr with mode := { scr.mode with cursorColumn := col } }

def setRow (scr : Screen) (row : Int32) : Screen :=
  { scr with mode := { scr.mode with cursorRow := row } }

def setWrap (scr : Screen) (pending : Bool) : Screen := { scr with pendingWrap := pending }

/-- `S->Cols` and `S->Rows` after `RefreshSize`. -/
def resize (scr : Screen) (window : UInt32 × UInt32) : Screen :=
  { scr with
    cols := if window.1 ≥ 20 then window.1 else 80
    rows := if window.2 ≥ 5 then window.2 else 25 }

end Screen

def rowDown (scr : Screen) : Screen :=
  if scr.mode.cursorRow.toUInt32 + 1 < scr.rows then scr.setRow (scr.mode.cursorRow + 1) else scr

/-- The column of the next tab stop. -/
def tabColumn (scr : Screen) : Int32 :=
  let col := (scr.mode.cursorColumn &&& ~~~7) + 8
  if col.toUInt32 ≥ scr.cols then scr.cols.toInt32 - 1 else col

/-- The move behind a printed character. -/
def advance (scr : Screen) : Screen :=
  if scr.mode.cursorColumn.toUInt32 + 1 ≥ scr.cols then
    (scr.setColumn (scr.cols.toInt32 - 1)).setWrap true
  else scr.setColumn (scr.mode.cursorColumn + 1)

/-- The wrap that was put off. -/
def wrapIfPending (scr : Screen) : Screen :=
  if scr.pendingWrap then (rowDown (scr.setColumn 0)).setWrap false else scr

/-- The loop body of `ShimOutputString`: the screen after `c`, and the bytes emitted. -/
def printChar (c : UInt16) (scr : Screen) : Screen × Bytes :=
  if c = charLinefeed then
    (rowDown ((scr.setColumn 0).setWrap false), [byteOf '\r', byteOf '\n'])
  else if c = charCarriageReturn then ((scr.setColumn 0).setWrap false, [byteOf '\r'])
  else if c = charBackspace then
    if scr.mode.cursorColumn > 0 then
      ((scr.setColumn (scr.mode.cursorColumn - 1)).setWrap false, [0x08])
    else (scr.setWrap false, [])
  else if c = charTab then ((scr.setColumn (tabColumn scr)).setWrap false, [byteOf '\t'])
  else if c < 0x20 then (scr, [c.toUInt8])
  else (advance (wrapIfPending scr), utf8 c)

/-! ## `SimpleTextOut` -/

def setScreen (f : Screen → Screen) : ConsoleM σ Unit :=
  modify fun s => { s with screen := f s.screen }

section Output

variable (ssh : Ssh σ) (fw : Firmware σ) (rounds : ℕ)

def refreshSize : ConsoleM σ Unit :=
  modify fun s => { s with screen := s.screen.resize (ssh.window s.host) }

/-- The poll at every 16th string. -/
def pollSometimes : ConsoleM σ Unit := do
  modify fun s => { s with outPoll := s.outPoll + 1 }
  let s ← get
  if s.outPoll &&& 15 = 0 ∧ s.disconnected = false then
    if ← onShim (call ssh.poll) then return () else onShim (lose .poll s.host)

def printString : List UInt16 → ConsoleM σ Unit
  | [] => pure ()
  | c :: cs => do
      let (scr, bytes) := printChar c (← get).screen
      emit ssh fw rounds bytes
      setScreen fun _ => scr
      printString cs

/-- `string` is the text before the terminating NUL. -/
def shimOutputString (string : List UInt16) : ConsoleM σ EfiStatus := do
  pollSometimes ssh
  printString ssh fw rounds string
  flush ssh fw rounds
  return efiSuccess

def shimTestString : ConsoleM σ EfiStatus := return efiSuccess

def shimQueryMode (modeNumber : UInt64) : ConsoleM σ (EfiStatus × Option (UInt64 × UInt64)) := do
  if modeNumber ≠ 0 then return (efiUnsupported, none)
  else
    refreshSize ssh
    let scr := (← get).screen
    return (efiSuccess, some (scr.cols.toUInt64, scr.rows.toUInt64))

/-- The bytes of `ShimClearScreen`. -/
def clearBytes : Bytes := ascii "\x1b[2J\x1b[H"

def shimClearScreen : ConsoleM σ EfiStatus := do
  emit ssh fw rounds clearBytes
  setScreen fun scr => ((scr.setColumn 0).setRow 0).setWrap false
  flush ssh fw rounds
  return efiSuccess

def shimSetMode (modeNumber : UInt64) : ConsoleM σ EfiStatus := do
  if modeNumber ≠ 0 then return efiUnsupported
  else
    setScreen fun scr => { scr with mode := { scr.mode with mode := 0 } }
    refreshSize ssh
    shimClearScreen ssh fw rounds

def efiToAnsi : List ℕ := [0, 4, 2, 6, 1, 5, 3, 7]

/-- The bytes of `ShimSetAttribute`. -/
def attributeBytes (value : UInt64) : Bytes :=
  let fg := (value &&& 0x07).toNat
  let bg := ((value >>> 4) &&& 0x07).toNat
  ascii "\x1b[0;" ++ num ((if value &&& 0x08 ≠ 0 then 90 else 30) + efiToAnsi.getD fg 0) ++
    [byteOf ';'] ++ num (40 + efiToAnsi.getD bg 0) ++ [byteOf 'm']

def shimSetAttribute (value : UInt64) : ConsoleM σ EfiStatus := do
  if value > 0x7F then return efiUnsupported
  else
    setScreen fun scr =>
      { scr with mode := { scr.mode with textAttribute := value.toUInt32.toInt32 } }
    emit ssh fw rounds (attributeBytes value)
    flush ssh fw rounds
    return efiSuccess

/-- The bytes of `ShimSetCursor`. -/
def cursorBytes (column row : UInt64) : Bytes :=
  ascii "\x1b[" ++ num (row + 1).toNat ++ [byteOf ';'] ++ num (column + 1).toNat ++ [byteOf 'H']

def shimSetCursor (column row : UInt64) : ConsoleM σ EfiStatus := do
  let scr := (← get).screen
  if column ≥ scr.cols.toUInt64 ∨ row ≥ scr.rows.toUInt64 then return efiUnsupported
  else
    setScreen fun scr =>
      ((scr.setColumn column.toUInt32.toInt32).setRow row.toUInt32.toInt32).setWrap false
    emit ssh fw rounds (cursorBytes column row)
    flush ssh fw rounds
    return efiSuccess

/-- The bytes of `ShimEnableCursor`. -/
def visibleBytes (visible : Bool) : Bytes := ascii (if visible then "\x1b[?25h" else "\x1b[?25l")

def shimEnableCursor (visible : Bool) : ConsoleM σ EfiStatus := do
  setScreen fun scr => { scr with mode := { scr.mode with cursorVisible := visible } }
  emit ssh fw rounds (visibleBytes visible)
  flush ssh fw rounds
  return efiSuccess

def shimOutReset : ConsoleM σ EfiStatus := do
  setScreen fun scr =>
    { scr with mode := { scr.mode with textAttribute := 0x07, cursorVisible := true } }
  emit ssh fw rounds (ascii "\x1b[0m\x1b[?25h")
  flush ssh fw rounds
  shimClearScreen ssh fw rounds

/-! ## `ShimInstall` -/

/-- The zeroed `CONSOLE_SHIM` on a connection. -/
def zeroConsole (host : σ) : Console σ where
  host := host
  keyboard := {
    keys := ⟨fun _ => ⟨⟨0, 0⟩, 0, 0⟩, ⟨0, shimKeyRing_pos⟩, ⟨0, shimKeyRing_pos⟩⟩
    decoder := newDecoder
    escTick := 0
    notify := fun _ => ⟨⟨⟨0, 0⟩, 0, 0⟩, none, false⟩
    exitInjects := 0 }
  disconnected := false
  log := []
  screen := ⟨⟨0, 0, 0, 0, false⟩, 0, 0, false⟩
  outBuf := []
  outPoll := 0

/-- `ShimInstall` when the firmware takes the protocols. -/
def shimInstall : ConsoleM σ EfiStatus := do
  refreshSize ssh
  setScreen fun scr => { scr with mode := ⟨0, 0x07, 0, 0, true⟩ }
  emit ssh fw rounds (ascii "\x1b[0m")
  flush ssh fw rounds
  return efiSuccess

end Output

/-! ## Runs -/

/-- A call of the Shell, or of the firmware for it. -/
inductive ConsoleCall where
  | outputString (string : List UInt16)
  | testString
  | queryMode (modeNumber : UInt64)
  | setMode (modeNumber : UInt64)
  | setAttribute (value : UInt64)
  | clearScreen
  | setCursorPosition (column row : UInt64)
  | enableCursor (visible : Bool)
  | outReset
  | inReset
  | readKey
  | readKeyEx (given : Bool)
  | waitKey
  | registerNotify (kd : Option KeyData) (fn : Option ℕ) (wanted : Bool)
  | unregisterNotify (handle : Option (Fin shimMaxNotify))

def runConsole (ssh : Ssh σ) (fw : Firmware σ) (rounds : ℕ) : ConsoleCall → ConsoleM σ Unit
  | .outputString string => do let _ ← shimOutputString ssh fw rounds string
  | .testString => do let _ ← shimTestString
  | .queryMode modeNumber => do let _ ← shimQueryMode ssh modeNumber
  | .setMode modeNumber => do let _ ← shimSetMode ssh fw rounds modeNumber
  | .setAttribute value => do let _ ← shimSetAttribute ssh fw rounds value
  | .clearScreen => do let _ ← shimClearScreen ssh fw rounds
  | .setCursorPosition column row => do let _ ← shimSetCursor ssh fw rounds column row
  | .enableCursor visible => do let _ ← shimEnableCursor ssh fw rounds visible
  | .outReset => do let _ ← shimOutReset ssh fw rounds
  | .inReset => do let _ ← onShim shimInReset
  | .readKey => do let _ ← onShim (shimReadKey ssh fw rounds)
  | .readKeyEx given => do let _ ← onShim (shimReadKeyEx ssh fw rounds given)
  | .waitKey => onShim (shimWaitKeyNotify ssh fw rounds)
  | .registerNotify kd fn wanted => do let _ ← onShim (shimRegisterNotify kd fn wanted)
  | .unregisterNotify handle => do let _ ← onShim (shimUnregisterNotify handle)

/-- The states that sequences of calls on `s` lead to. -/
inductive ConsoleRuns (ssh : Ssh σ) (fw : Firmware σ) (s : Console σ) : Console σ → Prop
  | none : ConsoleRuns ssh fw s s
  | call {t t' : Console σ} (h : ConsoleRuns ssh fw s t) (rounds : ℕ) (call : ConsoleCall)
      (hrun : runConsole ssh fw rounds call t = .ok ((), t')) : ConsoleRuns ssh fw s t'

/-- A new shim on this connection. -/
def Installed (ssh : Ssh σ) (fw : Firmware σ) (host : σ) (s : Console σ) : Prop :=
  ∃ rounds, shimInstall ssh fw rounds (zeroConsole host) = .ok (efiSuccess, s)

/-- The states the shim on this connection reaches. -/
def ShimReachable (ssh : Ssh σ) (fw : Firmware σ) (host : σ) (s : Console σ) : Prop :=
  ∃ s₀, Installed ssh fw host s₀ ∧ ConsoleRuns ssh fw s₀ s

theorem ConsoleRuns.trans {ssh : Ssh σ} {fw : Firmware σ} {s t u : Console σ}
    (h : ConsoleRuns ssh fw s t) (h' : ConsoleRuns ssh fw t u) : ConsoleRuns ssh fw s u := by
  induction h' with
  | none => exact h
  | call _ rounds call hrun ih => exact ih.call rounds call hrun

end EfiSshServer
