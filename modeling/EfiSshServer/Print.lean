import Mathlib.Data.Nat.Digits.Lemmas
import EfiSshServer.Lib.Cells
import EfiSshServer.Keys

/-!
# `Print`

`Print` of `uefirt.c` formats into an array of 512 units on the stack.  The room is tested
once for each character of the format, and a branch may store one unit or two, or many with
tests of its own.  This module models every access as one that can fault: to the array, to
the digits of `PutNum`, and to the characters of the format and of a string argument.

## Strategy

The specification of a format is the list of its `pieces`, and `render` is the text they
stand for.  `Printed s text t` says how the state may go from `s` to `t` while `text` is
printed: the array keeps its size, at least one cell is left for the NUL, and what was
stored is a beginning of `text`, all of it if there still is room.  It composes, so that
each branch needs to be looked at once, with two cells of slack at its start.
-/

namespace EfiSshServer

open StateProgram Cells

/-! ## Arguments -/

/-- An argument after the format.  An `int` and an `unsigned` are the same 32 bits. -/
inductive PrintArg where
  | int (v : UInt32)
  | long (v : UInt64)
  /-- A pointer to a string, without its NUL, or `NULL`. -/
  | str (s : Option Bytes)
  deriving DecidableEq

inductive ArgKind where
  | int | long | str
  deriving DecidableEq

def PrintArg.kind : PrintArg → ArgKind
  | int _ => .int
  | long _ => .long
  | str _ => .str

/-! ## The functions of the source -/

inductive PrintFault where
  /-- An access outside of an array or behind the NUL of a string. -/
  | outside
  /-- `va_arg` with a type that is not the argument's. -/
  | badArg
  /-- The loop of `Print` has had all its rounds. -/
  | running
  deriving DecidableEq

/-- `buf`, the offset of `w` in it, and what `ap` has not read. -/
structure PrintState where
  buf : List UInt16
  w : ℕ
  args : List PrintArg
  deriving DecidableEq

abbrev PrintM := Program PrintFault PrintState

abbrev printBuf : ℕ := 512

/-- The offset of `end`. -/
abbrev printEnd : ℕ := 510

abbrev putNumBuf : ℕ := 24

/-- What the arrays of `Print` and `PutNum` hold before anything is stored in them. -/
structure PrintStack where
  buf : Vector UInt16 printBuf
  tmp : Vector UInt16 putNumBuf

/-- `*w = u`. -/
def storeUnit (u : UInt16) : PrintM Unit := do
  let s ← get
  zoom PrintState.buf (fun buf s => { s with buf }) (store .outside s.w u)

/-- `*w++ = u`. -/
def putUnit (u : UInt16) : PrintM Unit := do
  storeUnit u
  modify fun s => { s with w := s.w + 1 }

/-- `va_arg(ap, int)` or `va_arg(ap, unsigned)`. -/
def intArg : PrintM UInt32 := do
  match (← get).args with
  | .int v :: args =>
      modify fun s => { s with args }
      return v
  | _ => throw .badArg

/-- `va_arg(ap, UINT64)`. -/
def longArg : PrintM UInt64 := do
  match (← get).args with
  | .long v :: args =>
      modify fun s => { s with args }
      return v
  | _ => throw .badArg

/-- `va_arg(ap, const char *)`. -/
def strArg : PrintM (Option Bytes) := do
  match (← get).args with
  | .str s :: args =>
      modify fun s => { s with args }
      return s
  | _ => throw .badArg

def digitUnit (d : ℕ) : UInt16 := UInt16.ofNat (if d < 10 then 48 + d else 97 + d - 10)

/-- The first loop of `PutNum`, with `n` digits stored and `room` cells left. -/
def putDigits (base : ℕ) : (room n v : ℕ) → Program PrintFault (List UInt16) ℕ
  | 0, _, _ => throw .outside
  | room + 1, n, v => do
      store .outside n (digitUnit (v % base))
      if v / base ≠ 0 then putDigits base room (n + 1) (v / base) else return n + 1

/-- The second loop of `PutNum`, from the digit before `n` down to the first. -/
def putTail (tmp : List UInt16) : (n : ℕ) → PrintM Unit
  | 0 => return ()
  | n + 1 => do
      if (← get).w < printEnd then
        putUnit (← fetch .outside tmp n)
        putTail tmp n

def putNum (stack : PrintStack) (v base : ℕ) (neg : Bool) : PrintM Unit := do
  let digits ← onLocal stack.tmp.toList (putDigits base putNumBuf 0 v)
  if neg ∧ (← get).w < printEnd then putUnit (byteOf '-').toUInt16
  putTail digits.2 digits.1

/-- The loop of `%s`, on a string with its NUL. -/
def putString : Bytes → PrintM Unit
  | [] => throw .outside
  | c :: rest => do
      if c ≠ 0 ∧ (← get).w < printEnd then
        putUnit c.toUInt16
        putString rest

/-- A character that is not part of a conversion. -/
def putPlain (c : UInt8) : PrintM Unit := do
  if c = byteOf '\n' then putUnit (byteOf '\r').toUInt16
  putUnit c.toUInt16

/-- The `switch` on the character behind a `%`, for all but `l`. -/
def conversion (stack : PrintStack) (c : UInt8) : PrintM Unit := do
  if c = byteOf 'd' then
    let v ← intArg
    putNum stack v.toInt32.toInt.natAbs 10 (v.toInt32 < 0)
  else if c = byteOf 'u' then
    let v ← intArg
    putNum stack v.toNat 10 false
  else if c = byteOf 'x' then
    let v ← intArg
    putNum stack v.toNat 16 false
  else if c = byteOf 'r' then
    let v ← longArg
    putNum stack v.toNat 16 false
  else if c = byteOf 'c' then
    let v ← intArg
    putUnit v.toUInt16
  else if c = byteOf 's' then
    let s ← strArg
    putString (s.getD (ascii "(null)") ++ [0])
  else if c = byteOf '%' then putUnit (byteOf '%').toUInt16
  else
    putUnit (byteOf '%').toUInt16
    if (← get).w < printEnd then putUnit c.toUInt16

/-- `%lx` and `%lu`. -/
def longConversion (stack : PrintStack) (base : ℕ) : PrintM Unit := do
  let v ← longArg
  putNum stack v.toNat base false

/-- What `Print` does behind a `%`, and what is left of the format then. -/
def percent (stack : PrintStack) : Bytes → PrintM Bytes
  | [] => throw .outside
  | c :: rest => do
      if c = byteOf 'l' then
        match rest with
        | [] => throw .outside
        | next :: rest' =>
            if next = byteOf 'x' then
              longConversion stack 16
              return rest'
            else if next = byteOf 'u' then
              longConversion stack 10
              return rest'
            else return rest
      else
        conversion stack c
        return rest

/-- The loop of `Print`, on what is left of the format with its NUL. -/
def printLoop (stack : PrintStack) : (rounds : ℕ) → Bytes → PrintM Unit
  | 0, _ => throw .running
  | _ + 1, [] => throw .outside
  | rounds + 1, c :: rest => do
      if c ≠ 0 ∧ (← get).w < printEnd then
        if c ≠ byteOf '%' then
          putPlain c
          printLoop stack rounds rest
        else
          let rest ← percent stack rest
          printLoop stack rounds rest

/-- `Print`: the array that `OutputString` is called with, if there is a console.  Each round
takes a character at least. -/
def print (console : Bool) (stack : PrintStack) (fmt : Bytes) : PrintM (Option (List UInt16)) := do
  if !console then return none
  else
    printLoop stack (fmt.length + 1) (fmt ++ [0])
    storeUnit 0
    return some (← get).buf

/-! ## Formats -/

/-- What one round of the loop takes from a format. -/
inductive Piece where
  | plain (c : UInt8)
  | conv (c : UInt8)
  | long (base : ℕ)
  deriving DecidableEq

/-- The pieces of a format.  A `%l` before anything but `x` and `u` is none. -/
def pieces : Bytes → List Piece
  | [] => []
  | c :: rest =>
      if c ≠ byteOf '%' then .plain c :: pieces rest
      else
        match rest with
        | [] => []
        | c :: rest =>
            if c = byteOf 'l' then
              match rest with
              | [] => []
              | next :: rest' =>
                  if next = byteOf 'x' then .long 16 :: pieces rest'
                  else if next = byteOf 'u' then .long 10 :: pieces rest'
                  else pieces (next :: rest')
            else .conv c :: pieces rest

/-- The last `%` of the format has nothing behind it to convert. -/
def endsInLone : Bytes → Bool
  | [] => false
  | c :: rest =>
      if c ≠ byteOf '%' then endsInLone rest
      else
        match rest with
        | [] => true
        | _ :: rest => endsInLone rest

/-- The argument that a piece takes. -/
def Piece.kind : Piece → Option ArgKind
  | .plain _ => none
  | .long _ => some .long
  | .conv c =>
      if c = byteOf 'd' ∨ c = byteOf 'u' ∨ c = byteOf 'x' ∨ c = byteOf 'c' then some .int
      else if c = byteOf 'r' then some .long
      else if c = byteOf 's' then some .str
      else none

/-- There is an argument of the right kind for each piece that takes one. -/
def ArgsMatch (ps : List Piece) (args : List PrintArg) : Prop :=
  ps.filterMap Piece.kind <+: args.map PrintArg.kind

/-! ## What a format stands for -/

/-- The digits of `v`, the lowest first.  There is always one. -/
def lowDigits (base v : ℕ) : List ℕ := v % base :: Nat.digits base (v / base)

def numText (v base : ℕ) (neg : Bool) : List UInt16 :=
  (if neg then [(byteOf '-').toUInt16] else []) ++ ((lowDigits base v).map digitUnit).reverse

def plainText (c : UInt8) : List UInt16 :=
  (if c = byteOf '\n' then [(byteOf '\r').toUInt16] else []) ++ [c.toUInt16]

def strText (s : Option Bytes) : List UInt16 :=
  ((s.getD (ascii "(null)")).takeWhile (· ≠ 0)).map UInt8.toUInt16

/-- A conversion of an argument. -/
def argText (c : UInt8) : PrintArg → List UInt16
  | .int v =>
      if c = byteOf 'd' then numText v.toInt32.toInt.natAbs 10 (v.toInt32 < 0)
      else if c = byteOf 'u' then numText v.toNat 10 false
      else if c = byteOf 'x' then numText v.toNat 16 false
      else [v.toUInt16]
  | .long v => numText v.toNat 16 false
  | .str s => strText s

/-- The text of a piece and the arguments behind it. -/
def Piece.text (p : Piece) (args : List PrintArg) : List UInt16 × List PrintArg :=
  match p with
  | .plain c => (plainText c, args)
  | .long base =>
      match args with
      | .long v :: args => (numText v.toNat base false, args)
      | _ => ([], args)
  | .conv c =>
      match p.kind, args with
      | some _, arg :: args => (argText c arg, args)
      | some _, [] => ([], [])
      | none, args =>
          ((byteOf '%').toUInt16 :: if c = byteOf '%' then [] else [c.toUInt16], args)

/-- The whole text, as if there were room for it. -/
def render : List Piece → List PrintArg → List UInt16
  | [], _ => []
  | p :: ps, args => (p.text args).1 ++ render ps (p.text args).2

/-! ## Printing so far -/

/-- What has been stored. -/
def PrintState.text (s : PrintState) : List UInt16 := s.buf.take s.w

/-- The array has its size, and there is a cell left for the NUL. -/
structure PrintState.Fits (s : PrintState) : Prop where
  size : s.buf.length = printBuf
  room : s.w < printBuf

/-- The state went from `s` to `t` while `text` was printed, if there was room at `s`. -/
structure Printed (s : PrintState) (text : List UInt16) (t : PrintState) : Prop where
  fits : t.Fits
  part : t.text <+: s.text ++ text
  whole : t.w < printEnd → t.text = s.text ++ text
  stops : ¬ s.w < printEnd → t.text = s.text ∧ t.w = s.w

section Printed

variable {s t u : PrintState} {a b : List UInt16}

theorem Printed.refl (h : s.Fits) : Printed s [] s where
  fits := h
  part := by rw [List.append_nil]
  whole _ := (List.append_nil _).symm
  stops _ := ⟨rfl, rfl⟩

/-- Nothing more is stored without room. -/
theorem Printed.full (h : s.Fits) (hfull : ¬ s.w < printEnd) : Printed s a s where
  fits := h
  part := List.prefix_append _ _
  whole hroom := absurd hroom hfull
  stops _ := ⟨rfl, rfl⟩

/-- One text after the other.  Where the room ends in the first, all of the second is left
out. -/
theorem Printed.append (hst : Printed s a t) (htu : Printed t b u) : Printed s (a ++ b) u := by
  refine ⟨htu.fits, ?_, ?_, ?_⟩
  · rw [← List.append_assoc]
    by_cases hroom : t.w < printEnd
    · rw [← hst.whole hroom]
      exact htu.part
    · rw [(htu.stops hroom).1]
      exact hst.part.trans (List.prefix_append _ _)
  · intro hroom
    have hmid : t.w < printEnd := by
      by_contra hfull
      rw [(htu.stops hfull).2] at hroom
      exact hfull hroom
    rw [htu.whole hroom, hst.whole hmid, List.append_assoc]
  · intro hfull
    obtain ⟨htext, hw⟩ := hst.stops hfull
    have hstill := htu.stops (by rw [hw]; exact hfull)
    exact ⟨hstill.1.trans htext, hstill.2.trans hw⟩

/-- Arguments that were read do not matter. -/
theorem Printed.of_args {args : List PrintArg} (h : Printed { s with args } a t) :
    Printed s a t :=
  ⟨h.fits, h.part, h.whole, h.stops⟩

end Printed

/-! ## Single units -/

section Units

variable {s : PrintState} {u v : UInt16} {text : List UInt16} {fault : PrintFault → Prop}

/-- The state after `*w++ = u`. -/
def PrintState.push (s : PrintState) (u : UInt16) : PrintState :=
  { s with buf := s.buf.set s.w u, w := s.w + 1 }

@[simp] theorem push_w : (s.push u).w = s.w + 1 := rfl

@[simp] theorem push_args : (s.push u).args = s.args := rfl

@[simp] theorem push_size : (s.push u).buf.length = s.buf.length := List.length_set

theorem push_text (h : s.Fits) : (s.push u).text = s.text ++ [u] := by
  have hin : s.w < s.buf.length := by
    rw [h.size]
    exact h.room
  rw [PrintState.text, PrintState.push, List.take_add_one, List.take_set_of_le (Nat.le_refl _),
    List.getElem?_set_self hin]
  rfl

theorem wp_storeUnit {post : Unit → PrintState → Prop} (h : s.Fits)
    (hpost : post () { s with buf := s.buf.set s.w u }) : wp (storeUnit u) post fault s := by
  rw [storeUnit]
  simp only [wp_bind, wp_get, wp_zoom]
  apply wp_store _ hpost
  rw [h.size]
  exact h.room

theorem wp_putUnit {post : Unit → PrintState → Prop} (h : s.Fits) (hpost : post () (s.push u)) :
    wp (putUnit u) post fault s := by
  rw [putUnit, wp_bind]
  exact wp_storeUnit h hpost

/-- A unit while there is room. -/
theorem printed_push (h : s.Fits) (hroom : s.w < printEnd) : Printed s [u] (s.push u) where
  fits := ⟨push_size.trans h.size, (Nat.succ_lt_succ hroom).trans (Nat.lt_succ_self 511)⟩
  part := by rw [push_text h]
  whole _ := push_text h
  stops hfull := absurd hroom hfull

/-- Two units.  This is what the slack behind `end` is for. -/
theorem printed_push_push (h : s.Fits) (hroom : s.w < printEnd) :
    Printed s [u, v] ((s.push u).push v) := by
  have htext : ((s.push u).push v).text = s.text ++ [u, v] := by
    rw [push_text (printed_push h hroom).fits, push_text h, List.append_assoc]
    rfl
  refine ⟨⟨by simp [h.size], ?_⟩, by rw [htext], fun _ => htext, fun hfull => absurd hroom hfull⟩
  exact Nat.succ_lt_succ (Nat.succ_lt_succ hroom)

end Units


/-! ## Numbers and strings -/

section Numbers

variable {s : PrintState} {base n v room : ℕ} {tmp : List UInt16} {fault : PrintFault → Prop}

/-- The digits of a number that fits in the cells left. -/
theorem wp_putDigits (hbase : 1 < base) (hcells : n + room = tmp.length) (hpos : 0 < room)
    (hv : v < base ^ room) :
    wp (putDigits base room n v)
      (fun k tmp' => k ≤ tmp'.length ∧
        tmp'.take k = tmp.take n ++ (lowDigits base v).map digitUnit) fault tmp := by
  induction room generalizing n v tmp with
  | zero => exact absurd hpos (Nat.lt_irrefl 0)
  | succ room ih =>
      have hset : (tmp.set n (digitUnit (v % base))).take (n + 1) =
          tmp.take n ++ [digitUnit (v % base)] := by
        rw [List.take_add_one, List.take_set_of_le (Nat.le_refl n),
          List.getElem?_set_self (by omega)]
        rfl
      rw [putDigits, wp_bind]
      apply wp_store (by omega)
      apply wp.ite
      · intro hmore
        have hquotient : v / base < base ^ room := by
          apply Nat.div_lt_of_lt_mul
          rw [← Nat.pow_succ']
          exact hv
        -- A number that is not zero does not fit in no cells.
        have hleft : 0 < room := by
          apply Nat.pos_of_ne_zero
          rintro rfl
          exact hmore (Nat.lt_one_iff.mp hquotient)
        apply (ih (by rw [List.length_set]; omega) hleft hquotient).imp
        rintro k tmp' ⟨hk, htake⟩
        refine ⟨hk, ?_⟩
        rw [htake, hset, lowDigits, lowDigits, ← Nat.digits_def' hbase (Nat.pos_of_ne_zero hmore),
          List.append_assoc]
        rfl
      · intro hlast
        rw [not_not] at hlast
        refine ⟨by rw [List.length_set]; omega, ?_⟩
        rw [hset, lowDigits, hlast, Nat.digits_zero]
        rfl

/-- The digits in the order in which they are printed. -/
theorem wp_putTail (hfits : s.Fits) (hn : n ≤ tmp.length) :
    wp (putTail tmp n) (fun _ t => Printed s (tmp.take n).reverse t ∧ t.args = s.args) fault s := by
  induction n generalizing s with
  | zero => exact ⟨Printed.refl hfits, rfl⟩
  | succ n ih =>
      have hd : tmp[n]? = some tmp[n] := List.getElem?_eq_getElem (by omega)
      have htake : (tmp.take (n + 1)).reverse = [tmp[n]] ++ (tmp.take n).reverse := by
        rw [List.take_add_one, hd, Option.toList_some, List.reverse_append, List.reverse_singleton]
      rw [htake, putTail]
      simp only [wp_bind, wp_get]
      apply wp.ite
      · intro hroom
        have hpush : Printed s [tmp[n]] (s.push tmp[n]) := printed_push hfits hroom
        simp only [wp_bind]
        apply wp_fetch hd
        apply wp_putUnit hfits
        apply (ih hpush.fits (by omega)).imp
        rintro _ t ⟨ht, hargs⟩
        exact ⟨hpush.append ht, hargs⟩
      · intro hfull
        exact ⟨Printed.full hfits hfull, rfl⟩

theorem wp_putNum {stack : PrintStack} {neg : Bool} (hfits : s.Fits) (hbase : 10 ≤ base)
    (hv : v < 2 ^ 64) :
    wp (putNum stack v base neg)
      (fun _ t => Printed s (numText v base neg) t ∧ t.args = s.args) fault s := by
  have hlength : stack.tmp.toList.length = putNumBuf := stack.tmp.length_toList
  -- Twenty digits are enough in base ten, and so are the 24 cells in any larger base.
  have hdigits : v < base ^ putNumBuf :=
    calc v < 2 ^ 64 := hv
      _ < 10 ^ putNumBuf := by norm_num
      _ ≤ base ^ putNumBuf := Nat.pow_le_pow_left hbase putNumBuf
  rw [putNum, wp_bind]
  apply wp_onLocal
  apply (wp_putDigits (by omega) (by rw [hlength, Nat.zero_add]) (by decide) hdigits).imp
  rintro k tmp ⟨hk, htake⟩
  rw [List.take_zero, List.nil_append] at htake
  simp only [wp_bind, wp_get]
  apply wp.ite
  · rintro ⟨hneg, hroom⟩
    have hsign : Printed s [(byteOf '-').toUInt16] (s.push (byteOf '-').toUInt16) :=
      printed_push hfits hroom
    rw [wp_bind]
    apply wp_putUnit hfits
    apply (wp_putTail hsign.fits hk).imp
    rintro _ t ⟨ht, hargs⟩
    rw [htake] at ht
    rw [numText, if_pos hneg]
    exact ⟨hsign.append ht, hargs⟩
  · intro hskip
    apply (wp_putTail hfits hk).imp
    rintro _ t ⟨ht, hargs⟩
    rw [htake] at ht
    refine ⟨?_, hargs⟩
    rw [numText]
    by_cases hroom : s.w < printEnd
    · rw [if_neg (fun hneg => hskip ⟨hneg, hroom⟩)]
      exact ht
    · -- No sign because there is no room, and then there are no digits either.
      exact (Printed.full hfits hroom).append ht

end Numbers

section Strings

variable {s : PrintState} {fault : PrintFault → Prop}

theorem wp_putString (str : Bytes) (hfits : s.Fits) :
    wp (putString (str ++ [0]))
      (fun _ t => Printed s ((str.takeWhile (· ≠ 0)).map UInt8.toUInt16) t ∧ t.args = s.args)
      fault s := by
  induction str generalizing s with
  | nil =>
      rw [List.nil_append, putString]
      simp only [wp_bind, wp_get]
      apply wp.ite
      · rintro ⟨hzero, -⟩
        exact absurd rfl hzero
      · intro _
        exact ⟨Printed.refl hfits, rfl⟩
  | cons c str ih =>
      rw [List.cons_append, putString]
      simp only [wp_bind, wp_get]
      apply wp.ite
      · rintro ⟨hc, hroom⟩
        have hpush : Printed s [c.toUInt16] (s.push c.toUInt16) := printed_push hfits hroom
        rw [wp_bind]
        apply wp_putUnit hfits
        apply (ih hpush.fits).imp
        rintro _ t ⟨ht, hargs⟩
        rw [List.takeWhile_cons_of_pos (by simpa using hc), List.map_cons]
        exact ⟨hpush.append ht, hargs⟩
      · intro hends
        refine ⟨?_, rfl⟩
        by_cases hc : c = 0
        · rw [List.takeWhile_cons_of_neg (by simpa using hc)]
          exact Printed.refl hfits
        · exact Printed.full hfits fun hroom => hends ⟨hc, hroom⟩

end Strings

/-! ## One round of the loop -/

section Rounds

variable {s : PrintState} {stack : PrintStack} {c : UInt8} {fault : PrintFault → Prop}

theorem wp_putPlain (hfits : s.Fits) (hroom : s.w < printEnd) :
    wp (putPlain c) (fun _ t => Printed s (plainText c) t ∧ t.args = s.args) fault s := by
  rw [putPlain, plainText]
  apply wp.ite
  · intro hnewline
    rw [if_pos hnewline, wp_bind]
    apply wp_putUnit hfits
    have hfirst : Printed s [(byteOf '\r').toUInt16] (s.push (byteOf '\r').toUInt16) :=
      printed_push hfits hroom
    apply wp_putUnit hfirst.fits
    exact ⟨printed_push_push hfits hroom, rfl⟩
  · intro hother
    rw [if_neg hother]
    apply wp_putUnit hfits
    exact ⟨printed_push hfits hroom, rfl⟩

/-! The arguments that a piece takes are there. -/

def HasArg (p : Piece) (args : List PrintArg) : Prop :=
  ∀ k, p.kind = some k → ∃ arg rest, args = arg :: rest ∧ arg.kind = k

theorem conv_text {arg : PrintArg} {rest : List PrintArg}
    (hkind : (Piece.conv c).kind.isSome = true) :
    (Piece.conv c).text (arg :: rest) = (argText c arg, rest) := by
  obtain ⟨k, hk⟩ := Option.isSome_iff_exists.mp hkind
  simp only [Piece.text, hk]

theorem conv_text_none {args : List PrintArg} (hkind : (Piece.conv c).kind = none) :
    (Piece.conv c).text args =
      ((byteOf '%').toUInt16 :: if c = byteOf '%' then [] else [c.toUInt16], args) := by
  simp only [Piece.text, hkind]

/-- A conversion that reads an `int`. -/
theorem hasArg_int (h : HasArg (.conv c) s.args) (hkind : (Piece.conv c).kind = some .int) :
    ∃ v rest, s.args = .int v :: rest := by
  obtain ⟨arg, rest, hargs, harg⟩ := h _ hkind
  cases arg with
  | int v => exact ⟨v, rest, hargs⟩
  | long v => cases harg
  | str str => cases harg

theorem hasArg_long {p : Piece} (h : HasArg p s.args) (hkind : p.kind = some .long) :
    ∃ v rest, s.args = .long v :: rest := by
  obtain ⟨arg, rest, hargs, harg⟩ := h _ hkind
  cases arg with
  | int v => cases harg
  | long v => exact ⟨v, rest, hargs⟩
  | str str => cases harg

theorem hasArg_str (h : HasArg (.conv c) s.args) (hkind : (Piece.conv c).kind = some .str) :
    ∃ str rest, s.args = .str str :: rest := by
  obtain ⟨arg, rest, hargs, harg⟩ := h _ hkind
  cases arg with
  | int v => cases harg
  | long v => cases harg
  | str str => exact ⟨str, rest, hargs⟩

theorem wp_intArg {post : UInt32 → PrintState → Prop} {v : UInt32} {args : List PrintArg}
    (h : s.args = .int v :: args) (hpost : post v { s with args }) :
    wp intArg post fault s := by
  rw [intArg]
  simp only [wp_bind, wp_get, h]
  exact hpost

theorem wp_longArg {post : UInt64 → PrintState → Prop} {v : UInt64} {args : List PrintArg}
    (h : s.args = .long v :: args) (hpost : post v { s with args }) :
    wp longArg post fault s := by
  rw [longArg]
  simp only [wp_bind, wp_get, h]
  exact hpost

theorem wp_strArg {post : Option Bytes → PrintState → Prop} {str : Option Bytes}
    {args : List PrintArg} (h : s.args = .str str :: args) (hpost : post str { s with args }) :
    wp strArg post fault s := by
  rw [strArg]
  simp only [wp_bind, wp_get, h]
  exact hpost

/-- The state with one argument less is as good as before. -/
theorem PrintState.Fits.drop (hfits : s.Fits) (args : List PrintArg) :
    ({ s with args } : PrintState).Fits :=
  ⟨hfits.size, hfits.room⟩

/-- A number from the next argument. -/
theorem wp_putNum_arg {v base : ℕ} {neg : Bool} {args : List PrintArg} (hfits : s.Fits)
    (hbase : 10 ≤ base) (hv : v < 2 ^ 64) :
    wp (putNum stack v base neg)
      (fun _ t => Printed s (numText v base neg) t ∧ t.args = args) fault { s with args } := by
  apply (wp_putNum (hfits.drop args) hbase hv).imp
  rintro _ t ⟨ht, hargs⟩
  exact ⟨ht.of_args, hargs⟩

theorem natAbs_toInt32_lt (v : UInt32) : v.toInt32.toInt.natAbs < 2 ^ 64 := by
  have hlow := v.toInt32.le_toInt
  have hhigh := v.toInt32.toInt_lt
  omega

theorem toNat32_lt (v : UInt32) : v.toNat < 2 ^ 64 := v.toNat_lt.trans (by decide)

/-- A branch that reads an `int`, from what it does with it. -/
theorem wp_intBranch {branch : UInt32 → PrintM Unit} (harg : HasArg (.conv c) s.args)
    (hkind : (Piece.conv c).kind = some .int)
    (hbranch : ∀ v args, wp (branch v)
      (fun _ t => Printed s (argText c (.int v)) t ∧ t.args = args) fault { s with args }) :
    wp (intArg >>= branch)
      (fun _ t => Printed s ((Piece.conv c).text s.args).1 t ∧
        t.args = ((Piece.conv c).text s.args).2) fault s := by
  obtain ⟨v, rest, hargs⟩ := hasArg_int harg hkind
  rw [hargs, conv_text (by rw [hkind]; rfl), wp_bind]
  apply wp_intArg hargs
  exact hbranch v rest

/-- **The `switch`.**  Each branch prints the text of its piece. -/
theorem wp_conversion (hfits : s.Fits) (hroom : s.w < printEnd)
    (harg : HasArg (.conv c) s.args) :
    wp (conversion stack c)
      (fun _ t => Printed s ((Piece.conv c).text s.args).1 t ∧
        t.args = ((Piece.conv c).text s.args).2) fault s := by
  rw [conversion]
  apply wp.ite
  · rintro rfl
    apply wp_intBranch harg (by decide)
    intro v args
    exact wp_putNum_arg hfits (by decide) (natAbs_toInt32_lt v)
  intro hd
  apply wp.ite
  · rintro rfl
    apply wp_intBranch harg (by decide)
    intro v args
    exact wp_putNum_arg hfits (by decide) (toNat32_lt v)
  intro hu
  apply wp.ite
  · rintro rfl
    apply wp_intBranch harg (by decide)
    intro v args
    exact wp_putNum_arg hfits (by decide) (toNat32_lt v)
  intro hx
  apply wp.ite
  · rintro rfl
    obtain ⟨v, rest, hargs⟩ := hasArg_long harg (by decide)
    rw [hargs, conv_text (by decide), wp_bind]
    apply wp_longArg hargs
    exact wp_putNum_arg hfits (by decide) v.toNat_lt
  intro hr
  apply wp.ite
  · rintro rfl
    apply wp_intBranch harg (by decide)
    intro v args
    apply wp_putUnit (hfits.drop args)
    exact ⟨(printed_push (hfits.drop args) hroom).of_args, rfl⟩
  intro hc
  apply wp.ite
  · rintro rfl
    obtain ⟨str, rest, hargs⟩ := hasArg_str harg (by decide)
    rw [hargs, conv_text (by decide), wp_bind]
    apply wp_strArg hargs
    apply (wp_putString _ (hfits.drop rest)).imp
    rintro _ t ⟨ht, htargs⟩
    exact ⟨ht.of_args, htargs⟩
  intro hs
  -- the other letters take no argument: `%%` is a percent sign, the rest is shown as it is
  have hkind : (Piece.conv c).kind = none := by
    simp only [Piece.kind, hd, hu, hx, hc, hr, hs, or_self, if_false]
  rw [conv_text_none hkind]
  apply wp.ite
  · intro hpercent
    rw [if_pos hpercent]
    apply wp_putUnit hfits
    exact ⟨printed_push hfits hroom, rfl⟩
  · intro hother
    have hfirst : Printed s [(byteOf '%').toUInt16] (s.push (byteOf '%').toUInt16) :=
      printed_push hfits hroom
    rw [if_neg hother, wp_bind]
    apply wp_putUnit hfits
    simp only [wp_bind, wp_get]
    apply wp.ite
    · intro hmore
      apply wp_putUnit hfirst.fits
      exact ⟨hfirst.append (printed_push hfirst.fits hmore), rfl⟩
    · intro hfull
      exact ⟨hfirst.append (Printed.full hfirst.fits hfull), rfl⟩

theorem wp_longConversion {base : ℕ} (hfits : s.Fits) (hbase : 10 ≤ base)
    (harg : HasArg (.long base) s.args) :
    wp (longConversion stack base)
      (fun _ t => Printed s ((Piece.long base).text s.args).1 t ∧
        t.args = ((Piece.long base).text s.args).2) fault s := by
  obtain ⟨v, rest, hargs⟩ := hasArg_long harg rfl
  rw [longConversion, hargs, wp_bind]
  apply wp_longArg hargs
  exact wp_putNum_arg hfits hbase v.toNat_lt

end Rounds

/-! ## The loop -/

section Loop

variable {s : PrintState} {stack : PrintStack} {fault : PrintFault → Prop}

/-- The first piece finds its argument, and the others theirs behind it. -/
theorem ArgsMatch.cons {p : Piece} {ps : List Piece} {args : List PrintArg}
    (h : ArgsMatch (p :: ps) args) : HasArg p args ∧ ArgsMatch ps (p.text args).2 := by
  rw [ArgsMatch, List.filterMap_cons] at h
  cases hkind : p.kind with
  | none =>
      have htext : (p.text args).2 = args := by
        cases p with
        | plain c => rfl
        | long base => cases hkind
        | conv c => rw [conv_text_none hkind]
      rw [hkind] at h
      rw [htext]
      refine ⟨?_, h⟩
      intro k hk
      rw [hkind] at hk
      cases hk
  | some k =>
      rw [hkind] at h
      cases args with
      | nil =>
          have hnil := List.prefix_nil.mp h
          cases hnil
      | cons arg rest =>
          rw [List.map_cons, List.cons_prefix_cons] at h
          obtain ⟨hk, hrest⟩ := h
          have htext : (p.text (arg :: rest)).2 = rest := by
            cases p with
            | plain c => cases hkind
            | long base =>
                cases hkind
                cases arg with
                | int v => cases hk
                | long v => rfl
                | str str => cases hk
            | conv c => rw [conv_text (by rw [hkind]; rfl)]
          rw [htext]
          refine ⟨?_, hrest⟩
          intro k' hk'
          rw [hkind] at hk'
          cases hk'
          exact ⟨arg, rest, rfl, hk.symm⟩

/-! The format, read from its front. -/

section Front

variable {c d : UInt8} {rest : Bytes}

theorem pieces_plain (hc : c ≠ byteOf '%') : pieces (c :: rest) = .plain c :: pieces rest := by
  rw [pieces.eq_def]
  exact if_pos hc

theorem pieces_conv (hd : d ≠ byteOf 'l') :
    pieces (byteOf '%' :: d :: rest) = .conv d :: pieces rest := by
  rw [pieces.eq_def]
  simp only [ne_eq, not_true_eq_false, if_false, if_neg hd]

theorem pieces_long (d : UInt8) (rest : Bytes) :
    pieces (byteOf '%' :: byteOf 'l' :: d :: rest) =
      if d = byteOf 'x' then .long 16 :: pieces rest
      else if d = byteOf 'u' then .long 10 :: pieces rest
      else pieces (d :: rest) := by
  rw [pieces.eq_def]
  simp only [ne_eq, not_true_eq_false, if_false, if_true]

theorem endsInLone_plain (hc : c ≠ byteOf '%') : endsInLone (c :: rest) = endsInLone rest := by
  rw [endsInLone.eq_def]
  exact if_pos hc

theorem endsInLone_percent : endsInLone (byteOf '%' :: d :: rest) = endsInLone rest := by
  rw [endsInLone.eq_def]
  exact if_neg (not_not.mpr rfl)

end Front

/-- What the loop needs of the format and the state that are left. -/
structure Printable (fmt : Bytes) (s : PrintState) : Prop where
  nul : 0 ∉ fmt
  lone : endsInLone fmt = false
  args : ArgsMatch (pieces fmt) s.args
  fits : s.Fits

/-- A piece was printed, and the rest of the format is as good. -/
theorem printable_next {p : Piece} {ps : List Piece} {fmt : Bytes} {t : PrintState}
    (hnul : 0 ∉ fmt) (hlone : endsInLone fmt = false) (hps : ps = pieces fmt)
    (hmatches : ArgsMatch ps (p.text s.args).2) (ht : Printed s (p.text s.args).1 t)
    (hargs : t.args = (p.text s.args).2) :
    Printable fmt t ∧ ∃ text, Printed s text t ∧
      render (p :: ps) s.args = text ++ render (pieces fmt) t.args := by
  subst hps
  refine ⟨⟨hnul, hlone, ?_, ht.fits⟩, (p.text s.args).1, ht, ?_⟩
  · rw [hargs]
    exact hmatches
  · rw [render, hargs]

/-- The format left, when `ps` are the pieces of all of it. -/
def Left (bound : ℕ) (ps : List Piece) (s : PrintState) (left : Bytes) (t : PrintState) : Prop :=
  ∃ fmt, left = fmt ++ [0] ∧ fmt.length ≤ bound ∧ Printable fmt t ∧
    ∃ text, Printed s text t ∧ render ps s.args = text ++ render (pieces fmt) t.args

/-- A branch that prints a piece. -/
theorem wp_left {p : Piece} {round : PrintM Unit} {fmt : Bytes} {bound : ℕ}
    (hbound : fmt.length ≤ bound) (hnul : 0 ∉ fmt) (hlone : endsInLone fmt = false)
    (hmatches : ArgsMatch (p :: pieces fmt) s.args)
    (hround : HasArg p s.args → wp round
      (fun _ t => Printed s (p.text s.args).1 t ∧ t.args = (p.text s.args).2) fault s) :
    wp (do round; return fmt ++ [0]) (Left bound (p :: pieces fmt) s) fault s := by
  obtain ⟨harg, hmatches⟩ := hmatches.cons
  rw [wp_bind]
  apply (hround harg).imp
  rintro _ t ⟨ht, hargs⟩
  exact ⟨fmt, rfl, hbound, printable_next hnul hlone rfl hmatches ht hargs⟩

/-- Behind a `%` there is a piece, or a `%l` that is none. -/
theorem wp_percent (rest : Bytes) (h : Printable (byteOf '%' :: rest) s)
    (hroom : s.w < printEnd) :
    wp (percent stack (rest ++ [0])) (Left rest.length (pieces (byteOf '%' :: rest)) s)
      fault s := by
  obtain ⟨hnul, hlone, hmatches, hfits⟩ := h
  cases rest with
  | nil => cases hlone
  | cons d rest =>
  rw [List.mem_cons, not_or, List.mem_cons, not_or] at hnul
  obtain ⟨-, -, hrest⟩ := hnul
  rw [endsInLone_percent] at hlone
  rw [List.cons_append, percent.eq_def]
  apply wp.ite
  · rintro rfl
    cases rest with
    | nil => exact ⟨[], rfl, Nat.zero_le _, ⟨hrest, rfl, List.nil_prefix, hfits⟩, [],
        Printed.refl hfits, rfl⟩
    | cons next rest =>
        have hlength : rest.length ≤ (byteOf 'l' :: next :: rest).length := by
          simp only [List.length_cons]
          omega
        have hnul := hrest
        rw [pieces_long] at hmatches ⊢
        rw [List.mem_cons, not_or] at hrest
        simp only [List.cons_append]
        apply wp.ite
        · rintro rfl
          rw [if_pos rfl] at hmatches ⊢
          rw [endsInLone_plain (by decide)] at hlone
          apply wp_left hlength hrest.2 hlone hmatches
          exact wp_longConversion hfits (by decide)
        intro hx
        rw [if_neg hx] at hmatches ⊢
        apply wp.ite
        · rintro rfl
          rw [if_pos rfl] at hmatches ⊢
          rw [endsInLone_plain (by decide)] at hlone
          apply wp_left hlength hrest.2 hlone hmatches
          exact wp_longConversion hfits (by decide)
        intro hu
        rw [if_neg hu] at hmatches ⊢
        exact ⟨next :: rest, rfl, Nat.le_succ _, ⟨hnul, hlone, hmatches, hfits⟩, [],
          Printed.refl hfits, rfl⟩
  · intro hl
    rw [pieces_conv hl] at hmatches ⊢
    apply wp_left (Nat.le_succ _) hrest hlone hmatches
    exact wp_conversion hfits hroom

/-- **The loop of `Print`.** -/
theorem wp_printLoop (fmt : Bytes) {rounds : ℕ} (hrounds : fmt.length < rounds)
    (h : Printable fmt s) :
    wp (printLoop stack rounds (fmt ++ [0]))
      (fun _ t => Printed s (render (pieces fmt) s.args) t) fault s := by
  induction rounds generalizing fmt s with
  | zero => exact absurd hrounds (Nat.not_lt_zero _)
  | succ rounds ih =>
  cases fmt with
  | nil =>
      rw [List.nil_append, printLoop]
      simp only [wp_bind, wp_get]
      apply wp.ite
      · rintro ⟨hzero, -⟩
        exact absurd rfl hzero
      · intro _
        exact Printed.refl h.fits
  | cons c rest =>
      have hnul := h.nul
      rw [List.mem_cons, not_or] at hnul
      rw [List.length_cons] at hrounds
      rw [List.cons_append, printLoop]
      simp only [wp_bind, wp_get]
      apply wp.ite
      · rintro ⟨-, hroom⟩
        apply wp.ite
        · intro hplain
          have hmatches := h.args
          rw [pieces_plain hplain] at hmatches ⊢
          obtain ⟨-, hmatches⟩ := hmatches.cons
          have hlone : endsInLone rest = false := by
            rw [← endsInLone_plain hplain]
            exact h.lone
          rw [wp_bind]
          apply (wp_putPlain h.fits hroom).imp
          rintro _ t ⟨ht, hargs⟩
          obtain ⟨hnext, text, htext, hrender⟩ :=
            printable_next (p := .plain c) hnul.2 hlone rfl hmatches ht hargs
          rw [hrender]
          apply (ih rest (by omega) hnext).imp
          intro _ u hu
          exact htext.append hu
        · -- a conversion drops its own letters, so that fewer rounds than letters are left
          intro hpercent
          rw [not_not] at hpercent
          subst hpercent
          rw [wp_bind]
          apply (wp_percent rest h hroom).imp
          rintro left t ⟨fmt, rfl, hlength, hnext, text, htext, hrender⟩
          rw [hrender]
          apply (ih fmt (by omega) hnext).imp
          intro _ u hu
          exact htext.append hu
      · intro hends
        exact Printed.full h.fits fun hroom => hends ⟨Ne.symm hnul.1, hroom⟩

end Loop

/-! ## `Print` -/

/-- The state at the start of `Print`. -/
def printStart (stack : PrintStack) (args : List PrintArg) : PrintState :=
  ⟨stack.buf.toList, 0, args⟩

theorem printable_start (stack : PrintStack) {fmt : Bytes} {args : List PrintArg}
    (hnul : 0 ∉ fmt) (hlone : endsInLone fmt = false) (hargs : ArgsMatch (pieces fmt) args) :
    Printable fmt (printStart stack args) :=
  ⟨hnul, hlone, hargs, stack.buf.length_toList, Nat.zero_lt_succ 511⟩

/-- What `OutputString` gets: a beginning of the text, and all of it unless it fills the
array.  Behind it is the NUL. -/
theorem print_shows (stack : PrintStack) {fmt : Bytes} {args : List PrintArg} (hnul : 0 ∉ fmt)
    (hlone : endsInLone fmt = false) (hargs : ArgsMatch (pieces fmt) args) :
    ∃ buf t, print true stack fmt (printStart stack args) = .ok (some buf, t) ∧
      buf.length = printBuf ∧ ∃ shown, shown ++ [0] <+: buf ∧
      shown <+: render (pieces fmt) args ∧
      ((render (pieces fmt) args).length < printEnd → shown = render (pieces fmt) args) := by
  have hloop : wp (print true stack fmt)
      (fun out _ => ∃ buf, out = some buf ∧ buf.length = printBuf ∧ ∃ shown,
        shown ++ [0] <+: buf ∧ shown <+: render (pieces fmt) args ∧
        ((render (pieces fmt) args).length < printEnd → shown = render (pieces fmt) args))
      (fun _ => False) (printStart stack args) := by
    rw [print]
    simp only [Bool.not_true, Bool.false_eq_true, if_false, wp_bind]
    apply (wp_printLoop fmt (Nat.lt_succ_self _)
      (printable_start stack hnul hlone hargs)).imp
    rintro _ t ⟨hfits, hpart, hwhole, -⟩
    have hnothing : (printStart stack args).text = [] := List.take_zero
    have hsize := hfits.size
    have hroom := hfits.room
    rw [hnothing, List.nil_append] at hpart hwhole
    apply wp_storeUnit hfits
    refine ⟨_, rfl, by rw [List.length_set, hsize], t.text, ?_, hpart, ?_⟩
    · have htake : (t.buf.set t.w 0).take (t.w + 1) = t.text ++ [0] := by
        rw [List.take_add_one, List.take_set_of_le (Nat.le_refl _),
          List.getElem?_set_self (by omega)]
        rfl
      rw [← htake]
      exact List.take_prefix _ _
    · intro hshort
      apply hwhole
      have hlength : t.text.length = t.w := by
        rw [PrintState.text, List.length_take]
        omega
      have hle : t.text.length ≤ (render (pieces fmt) args).length := hpart.length_le
      omega
  obtain ⟨out, t, hrun, buf, rfl, hsize, hshown⟩ := hloop.returns
  exact ⟨buf, t, hrun, hsize, hshown⟩

/-- **`Print` never overruns its buffer.**  No store of `Print` or `PutNum` is outside of
its array, and the scan stays inside the format, whatever the arrays hold at the start. -/
theorem print_bounded (console : Bool) (stack : PrintStack) (fmt : Bytes) (args : List PrintArg)
    (hnul : 0 ∉ fmt) (hlone : endsInLone fmt = false) (hargs : ArgsMatch (pieces fmt) args) :
    ∃ out t, print console stack fmt (printStart stack args) = .ok (out, t) := by
  cases console with
  | false => exact ⟨none, printStart stack args, rfl⟩
  | true =>
      obtain ⟨buf, t, hrun, -⟩ := print_shows stack hnul hlone hargs
      exact ⟨some buf, t, hrun⟩


/-- The format `%s %u%%` and a line feed, with a string that does not fit. -/
theorem print_bounded_name :
    ∃ out t, print true ⟨Vector.replicate printBuf 0, Vector.replicate putNumBuf 0⟩
      [37, 115, 32, 37, 117, 37, 37, 10]
      (printStart ⟨Vector.replicate printBuf 0, Vector.replicate putNumBuf 0⟩
        [.str (some (List.replicate 600 65)), .int 22]) = .ok (out, t) := by
  apply print_bounded
  · decide
  · decide
  · unfold ArgsMatch
    decide

end EfiSshServer
