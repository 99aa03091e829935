import EfiSshServer.Credentials
import EfiSshServer.Launch

/-!
# The command line

`ParseArgs` copies the load options into a buffer of its own, cuts them into arguments in
place, and walks over the arguments.  A position in the buffer is an index; an argument
is the string that starts at one, up to the NUL that the cutting or the copy put there.

An access outside the buffer, and an `int` that overflows, have no defined result: there
the functions return `none`.
-/

namespace EfiSshServer

/-! ## Strings of `CHAR16` -/

/-- The string at an index of a buffer. -/
def string16 (buf : List UInt16) (i : ℕ) : List UInt16 := (buf.drop i).takeWhile (· ≠ 0)

/-- The loop of `StrCpy16` from index `i` on, with room for `room` more characters. -/
def strCpy16From (s : List UInt16) : (room i : ℕ) → List UInt16 → List UInt16
  | 0, i, d => d.set i 0
  | room + 1, i, d =>
      if s.getD i 0 = 0 then d.set i 0
      else strCpy16From s room (i + 1) (d.set i (s.getD i 0))

def strCpy16 (d s : List UInt16) (cap : ℕ) : List UInt16 := strCpy16From s (cap - 1) 0 d

def toAscii (s : List UInt16) (cap : ℕ) : Bytes :=
  (s.take (cap - 1)).map fun c => if c < 0x80 then c.toUInt8 else byteOf '?'

/-! ## The tokeniser -/

def isBlank (c : UInt16) : Bool := c = 0x20 || c = 0x09

def doubleQuote : UInt16 := 0x22

/-- The state of the loop; `argc` is the length of `argv`. -/
structure Tokens where
  buf : List UInt16
  p : ℕ
  argv : List ℕ

/-- `while (run(*p)) p++;` -/
def skipWhile (run : UInt16 → Bool) (buf : List UInt16) (p : ℕ) : Option ℕ :=
  let q := p + ((buf.drop p).takeWhile run).length
  if q < buf.length then some q else none

/-- The end of a round: a token from `start` to `stop`. -/
def endToken (t : Tokens) (start stop : ℕ) : Tokens :=
  if t.buf.getD stop 0 ≠ 0 then ⟨t.buf.set stop 0, stop + 1, t.argv ++ [start]⟩
  else ⟨t.buf, stop, t.argv ++ [start]⟩

/-- The loop, with room for so many arguments. -/
def tokenize : (room : ℕ) → Tokens → Option Tokens
  | 0, t => some t
  | room + 1, t => do
      if (← t.buf[t.p]?) = 0 then return t
      let p ← skipWhile isBlank t.buf t.p
      let c ← t.buf[p]?
      if c = 0 then return { t with p }
      if c = doubleQuote then
        let stop ← skipWhile (fun c => c ≠ 0 && c ≠ doubleQuote) t.buf (p + 1)
        tokenize room (endToken t (p + 1) stop)
      else
        let stop ← skipWhile (fun c => c ≠ 0 && !isBlank c) t.buf p
        tokenize room (endToken t p stop)

def argvSize : ℕ := 24

def argBufSize : ℕ := 512

/-- `buf`, with whatever lies on the stack. -/
abbrev ArgBuf := {b : List UInt16 // b.length = argBufSize}

/-- The arguments in load options of `opts.length` characters. -/
def commandArgs (stack : ArgBuf) (opts : List UInt16) : Option (List (List UInt16)) := do
  let cap := if opts.length < argBufSize then opts.length + 1 else argBufSize
  let t ← tokenize argvSize ⟨strCpy16 stack opts cap, 0, []⟩
  return t.argv.map (string16 t.buf)

/-! ## `atoi` -/

def isSpace (c : UInt8) : Bool := c = 0x20 || (9 ≤ c && c ≤ 13)

def intMax : ℕ := 2 ^ 31 - 1

/-- The digits of `atoi`. -/
def atoiFrom : ℕ → Bytes → Option ℕ
  | v, [] => some v
  | v, c :: s =>
      if isDigit c then
        let next := v * 10 + (c.toNat - (byteOf '0').toNat)
        if next ≤ intMax then atoiFrom next s else none
      else some v

def atoi (s : Bytes) : Option Int := do
  match s.dropWhile isSpace with
  | 0x2D :: s => return -(Int.ofNat (← atoiFrom 0 s))
  | 0x2B :: s => return Int.ofNat (← atoiFrom 0 s)
  | s => return Int.ofNat (← atoiFrom 0 s)

/-! ## `ParseArgs` -/

def sshDefaultPort : UInt16 := 22

/-- `SERVER_CFG`, and `gDebug`. -/
structure Settings where
  user : Bytes
  pass : Bytes
  port : UInt16
  shellPath : List UInt16
  shellOpts : List UInt16
  debug : Bool

def defaultSettings : Settings where
  user := ascii "admin"
  pass := ascii "admin"
  port := sshDefaultPort
  shellPath := []
  shellOpts := wide "-nostartup"
  debug := false

/-- An option with a value; `none` is the usage message. -/
def setOption (letter : UInt16) (value : List UInt16) (cfg : Settings) :
    Option (Option Settings) :=
  if letter = 0x70 then do
    let v ← atoi (toAscii value 16)
    return some { cfg with port := UInt16.ofBitVec (BitVec.ofInt 16 v) }
  else if letter = 0x75 then return some { cfg with user := toAscii value 64 }
  else if letter = 0x77 then return some { cfg with pass := toAscii value 128 }
  else if letter = 0x73 then return some { cfg with shellPath := value.take (260 - 1) }
  else if letter = 0x6F then return some { cfg with shellOpts := value.take (128 - 1) }
  else return none

/-- The loop over the arguments; `none` inside is the result `FALSE`. -/
def parseOptions : List (List UInt16) → Settings → Option (Option Settings)
  | [], cfg => return some cfg
  | arg :: args, cfg =>
      if arg.headD 0 ≠ 0x2D then parseOptions args cfg
      else if arg.getD 1 0 = 0x68 ∨ arg.getD 1 0 = 0x3F then return none
      else if arg.getD 1 0 = 0x64 then parseOptions args { cfg with debug := true }
      else
        match args with
        | [] => return none
        | value :: args => do
            match ← setOption (arg.getD 1 0) value cfg with
            | none => return none
            | some cfg => parseOptions args cfg

/-- The result `FALSE` is `none` inside; `opts` are the load options, if there are any. -/
def parseArgs (stack : ArgBuf) (opts : Option (List UInt16)) : Option (Option Settings) :=
  match opts with
  | none => return some defaultSettings
  | some opts => do
      if opts.length < 1 then return some defaultSettings
      match ← parseOptions (← commandArgs stack opts) defaultSettings with
      | none => return none
      | some cfg =>
          if cfg.port = 0 then return some { cfg with port := sshDefaultPort }
          return some cfg

end EfiSshServer
