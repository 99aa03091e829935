import EfiSshServer.Wire

/-!
# Keys and the input decoder of the console shim

`Decoder` is the part of `CONSOLE_SHIM` that `FeedByte` keeps between two bytes:
the escape sequence collected so far and a UTF-8 character that is not complete.
A byte yields the keys that the source hands to `PushKey` on it, in order; what
`PushKey` does with them is in `Shim.lean`.
-/

namespace EfiSshServer

/-! ## Constants -/

def scanNull : UInt16 := 0x00
def scanUp : UInt16 := 0x01
def scanDown : UInt16 := 0x02
def scanRight : UInt16 := 0x03
def scanLeft : UInt16 := 0x04
def scanHome : UInt16 := 0x05
def scanEnd : UInt16 := 0x06
def scanInsert : UInt16 := 0x07
def scanDelete : UInt16 := 0x08
def scanPageUp : UInt16 := 0x09
def scanPageDown : UInt16 := 0x0A
def scanF1 : UInt16 := 0x0B
def scanF2 : UInt16 := 0x0C
def scanF3 : UInt16 := 0x0D
def scanF4 : UInt16 := 0x0E
def scanF5 : UInt16 := 0x0F
def scanF6 : UInt16 := 0x10
def scanF7 : UInt16 := 0x11
def scanF8 : UInt16 := 0x12
def scanF9 : UInt16 := 0x13
def scanF10 : UInt16 := 0x14
def scanF11 : UInt16 := 0x15
def scanF12 : UInt16 := 0x16
def scanEsc : UInt16 := 0x17

def charBackspace : UInt16 := 0x08
def charTab : UInt16 := 0x09
def charLinefeed : UInt16 := 0x0A
def charCarriageReturn : UInt16 := 0x0D

def efiShiftStateValid : UInt32 := 0x80000000
def efiLeftControlPressed : UInt32 := 0x00000008

/-- `sizeof(S->Esc)`. -/
abbrev escSize : ℕ := 24

/-- The code of an ASCII character. -/
def byteOf (c : Char) : UInt8 := UInt8.ofNat c.toNat

/-! ## Keys -/

/-- `EFI_INPUT_KEY`. -/
structure InputKey where
  scanCode : UInt16
  unicodeChar : UInt16
  deriving DecidableEq, Repr

/-- `EFI_KEY_DATA`. -/
structure KeyData where
  key : InputKey
  keyShiftState : UInt32
  keyToggleState : UInt8
  deriving DecidableEq, Repr

/-- The control characters of which `PushKey` also fires the letter form. -/
def isControl (k : InputKey) : Bool :=
  k.scanCode = scanNull && 1 ≤ k.unicodeChar && k.unicodeChar ≤ 26 &&
    k.unicodeChar ≠ charBackspace && k.unicodeChar ≠ charTab &&
    k.unicodeChar ≠ charLinefeed && k.unicodeChar ≠ charCarriageReturn

/-- What `PushKey` makes of a key. -/
def keyData (k : InputKey) : KeyData where
  key := k
  keyShiftState :=
    if isControl k then efiShiftStateValid ||| efiLeftControlPressed else efiShiftStateValid
  keyToggleState := 0

/-- The letter form of a control character. -/
def letterForm (k : InputKey) : KeyData :=
  { keyData k with key := { k with unicodeChar := (byteOf 'a').toUInt16 + k.unicodeChar - 1 } }

/-- The character key `PushKey(S, SCAN_NULL, ch)`. -/
def charKey (ch : UInt16) : InputKey := ⟨scanNull, ch⟩

def escKey : InputKey := ⟨scanEsc, 0⟩

/-! ## Escape sequences -/

/-- The letters that end a sequence, for CSI and SS3 alike. -/
def letterScans : List (UInt8 × UInt16) :=
  [(byteOf 'A', scanUp), (byteOf 'B', scanDown), (byteOf 'C', scanRight), (byteOf 'D', scanLeft),
    (byteOf 'H', scanHome), (byteOf 'F', scanEnd), (byteOf 'P', scanF1), (byteOf 'Q', scanF2),
    (byteOf 'R', scanF3), (byteOf 'S', scanF4)]

def letterScan (b : UInt8) : UInt16 := (letterScans.lookup b).getD scanNull

/-- The numbers in front of a `~`. -/
def tildeScans : List (UInt64 × UInt16) :=
  [(1, scanHome), (2, scanInsert), (3, scanDelete), (4, scanEnd), (5, scanPageUp),
    (6, scanPageDown), (7, scanHome), (8, scanEnd), (11, scanF1), (12, scanF2), (13, scanF3),
    (14, scanF4), (15, scanF5), (17, scanF6), (18, scanF7), (19, scanF8), (20, scanF9),
    (21, scanF10), (23, scanF11), (24, scanF12)]

def tildeScan (num : UInt64) : UInt16 := (tildeScans.lookup num).getD scanNull

def isDigit (b : UInt8) : Bool := byteOf '0' ≤ b && b ≤ byteOf '9'

/-- The number behind `ESC [`, in an `UINTN`. -/
def csiNum (esc : Bytes) : UInt64 :=
  ((esc.drop 2).dropLast.takeWhile isDigit).foldl
    (fun num b => num * 10 + (b - byteOf '0').toUInt64) 0

/-- `PushKey` unless the scan code is `SCAN_NULL`. -/
def scanKeys (scan : UInt16) : List InputKey := if scan ≠ scanNull then [⟨scan, 0⟩] else []

def handleCsi (esc : Bytes) : List InputKey :=
  let final := esc.getLastD 0
  scanKeys (if final = byteOf '~' then tildeScan (csiNum esc) else letterScan final)

def handleSs3 (b : UInt8) : List InputKey := scanKeys (letterScan b)

/-! ## The decoder -/

/-- `esc` is `Esc[0 .. EscLen)`. -/
structure Decoder where
  esc : Bytes
  utf8Need : ℕ
  utf8Acc : UInt32
  lastWasCr : Bool
  deriving DecidableEq, Repr

/-- The decoder of a new shim. -/
def newDecoder : Decoder := ⟨[], 0, 0, false⟩

/-- The end of `FeedByte`: a byte that is not part of a UTF-8 continuation. -/
def plainByte (d : Decoder) (b : UInt8) : Decoder × List InputKey :=
  if b ≥ 0xF0 then ({ d with utf8Acc := (b &&& 0x07).toUInt32, utf8Need := 3 }, [])
  else if b ≥ 0xE0 then ({ d with utf8Acc := (b &&& 0x0F).toUInt32, utf8Need := 2 }, [])
  else if b ≥ 0xC0 then ({ d with utf8Acc := (b &&& 0x1F).toUInt32, utf8Need := 1 }, [])
  else if b = byteOf '\r' then ({ d with lastWasCr := true }, [charKey charCarriageReturn])
  else if b = byteOf '\n' then
    if d.lastWasCr then ({ d with lastWasCr := false }, [])
    else (d, [charKey charCarriageReturn])
  else
    ({ d with lastWasCr := false },
      [charKey (if b = 0x7f ∨ b = 0x08 then charBackspace else b.toUInt16)])

/-- `FeedByte` outside an escape sequence. -/
def groundByte (d : Decoder) (b : UInt8) : Decoder × List InputKey :=
  if b = 0x1b then ({ d with esc := [b] }, [])
  else if d.utf8Need > 0 then
    if b &&& 0xC0 = 0x80 then
      let acc := (d.utf8Acc <<< 6) ||| (b &&& 0x3F).toUInt32
      ({ d with utf8Acc := acc, utf8Need := d.utf8Need - 1 },
        if d.utf8Need - 1 = 0 ∧ acc ≤ 0xFFFF then [charKey acc.toUInt16] else [])
    else plainByte { d with utf8Need := 0 } b
  else plainByte d b

/-- `FeedByte`: the decoder after it and the keys it pushes. -/
def feedByte (d : Decoder) (b : UInt8) : Decoder × List InputKey :=
  if d.esc = [] then groundByte d b
  else
    let esc := if d.esc.length < escSize then d.esc ++ [b] else d.esc
    if esc.length = 2 then
      if b = byteOf '[' ∨ b = byteOf 'O' then ({ d with esc := esc }, [])
      else
        -- Not a sequence: the ESC key, and the byte again from the start.
        let fed := groundByte { d with esc := [] } b
        (fed.1, escKey :: fed.2)
    else if esc.getD 1 0 = byteOf 'O' then ({ d with esc := [] }, handleSs3 b)
    else if 0x40 ≤ b ∧ b ≤ 0x7E then ({ d with esc := [] }, handleCsi esc)
    else if esc.length ≥ escSize then ({ d with esc := [] }, [])
    else ({ d with esc := esc }, [])

/-- Whether `FeedByte` took the branch that sets `EscTick`. -/
def startsEsc (d : Decoder) (b : UInt8) : Bool := b = 0x1b && (feedByte d b).1.esc = [b]

/-- `FeedByte` on one byte after the other. -/
def feedBytes (d : Decoder) : Bytes → Decoder × List InputKey
  | [] => (d, [])
  | b :: bs =>
      let rest := feedBytes (feedByte d b).1 bs
      (rest.1, (feedByte d b).2 ++ rest.2)

@[simp] theorem feedBytes_nil (d : Decoder) : feedBytes d [] = (d, []) := rfl

theorem feedBytes_append (d : Decoder) (xs ys : Bytes) :
    feedBytes d (xs ++ ys) =
      ((feedBytes (feedBytes d xs).1 ys).1,
        (feedBytes d xs).2 ++ (feedBytes (feedBytes d xs).1 ys).2) := by
  induction xs generalizing d with
  | nil => rfl
  | cons x xs ih => simp only [List.cons_append, feedBytes, ih, List.append_assoc]

theorem feedBytes_concat (d : Decoder) (xs : Bytes) (b : UInt8) :
    feedBytes d (xs ++ [b]) =
      ((feedByte (feedBytes d xs).1 b).1,
        (feedBytes d xs).2 ++ (feedByte (feedBytes d xs).1 b).2) := by
  rw [feedBytes_append, feedBytes, feedBytes, List.append_nil]

/-- The keys of everything typed so far. -/
def keysOf (typed : Bytes) : List KeyData := (feedBytes newDecoder typed).2.map keyData

end EfiSshServer
