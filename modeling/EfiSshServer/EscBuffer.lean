import EfiSshServer.Lib.Cells
import EfiSshServer.Typing

/-!
# The escape buffer of the console shim

`Keys.lean` takes the collected escape sequence as a list.  In the source it is `Esc`, an
array of 24 bytes with a length beside it, and `FlushEsc` copies it to a local array and
feeds it back into the function that fills it.  This module keeps the array.  Every access
is checked, and so is the number of `FeedByte` calls that are open at once.

## Strategy

`EscBounded` is the invariant between two calls.  Each function meets a specification that
says three things: it does not fault, it keeps `EscBounded`, and it does to
`EscState.decoder` what its counterpart on lists does.

* A byte outside a sequence, `feedByteAt_ground`, never calls `FeedByte` again.  That is
  what bounds the depth: the one branch that does has emptied the buffer before.
* A byte inside a sequence, `feedByteAt_spec`, goes through the branches in the order of
  the source.  The limit is reached in the last one only.
* `FlushEsc` starts its replay with an empty buffer, so that each replayed byte is a call
  like any other.
-/

namespace EfiSshServer

open StateProgram Cells

/-! ## The functions of the source on the array -/

/-- What must not happen: an access outside of an array, or a `FeedByte` that was called
by a `FeedByte` and calls itself. -/
inductive EscFault where
  | outside
  | tooDeep
  deriving DecidableEq

/-- `Esc`, `EscLen` and the other fields that `FeedByte` keeps. -/
structure EscState where
  esc : Bytes
  escLen : ℕ
  utf8Need : ℕ
  utf8Acc : UInt32
  lastWasCr : Bool
  deriving DecidableEq

abbrev EscM := Program EscFault EscState

/-- The state after `ShimInit`, from zeroed memory. -/
def newEscState : EscState := ⟨List.replicate escSize 0, 0, 0, 0, false⟩

namespace EscState

/-- What `Keys.lean` keeps of the state. -/
def decoder (s : EscState) : Decoder :=
  ⟨s.esc.take s.escLen, s.utf8Need, s.utf8Acc, s.lastWasCr⟩

/-- The fields of a decoder that are not about escape sequences. -/
def withText (d : Decoder) (s : EscState) : EscState :=
  { s with utf8Need := d.utf8Need, utf8Acc := d.utf8Acc, lastWasCr := d.lastWasCr }

end EscState

/-- `n - 1` on an `UINTN`. -/
def uintnPred (n : ℕ) : ℕ := (n + (2 ^ 64 - 1)) % 2 ^ 64

def loadEsc (i : ℕ) : EscM UInt8 :=
  zoom EscState.esc (fun esc s => { s with esc }) (load .outside i)

def storeEsc (i : ℕ) (b : UInt8) : EscM Unit :=
  zoom EscState.esc (fun esc s => { s with esc }) (store .outside i b)

def setEscLen (n : ℕ) : EscM Unit := modify fun s => { s with escLen := n }

/-- The digit loop of `HandleCsi`, with `left` indices before the final byte. -/
def csiDigits : (left i : ℕ) → (num : UInt64) → EscM UInt64
  | 0, _, num => return num
  | left + 1, i, num => do
      let b ← loadEsc i
      if isDigit b then csiDigits left (i + 1) (num * 10 + (b - byteOf '0').toUInt64)
      else return num

/-- `HandleCsi`. -/
def handleCsiAt : EscM (List InputKey) := do
  let last := uintnPred (← get).escLen
  let final ← loadEsc last
  let num ← csiDigits (last - 2) 2 0
  return scanKeys (if final = byteOf '~' then tildeScan num else letterScan final)

/-- `S->Esc[S->EscLen++] = b` if there is room. -/
def appendEsc (b : UInt8) : EscM Unit := do
  let len := (← get).escLen
  if len < escSize then
    storeEsc len b
    setEscLen (len + 1)

/-- `FeedByte` from the test of `Utf8Need` on.  It does not touch `Esc`. -/
def textByte (b : UInt8) : EscM (List InputKey) := do
  let s ← get
  set (s.withText (groundByte s.decoder b).1)
  return (groundByte s.decoder b).2

/-- `FeedByte`, when `calls` of it may be open at once. -/
def feedByteAt : (calls : ℕ) → UInt8 → EscM (List InputKey)
  | 0, _ => throw .tooDeep
  | calls + 1, b => do
      if (← get).escLen > 0 then
        appendEsc b
        if (← get).escLen = 2 then
          if b = byteOf '[' ∨ b = byteOf 'O' then return []
          else
            setEscLen 0
            let again ← feedByteAt calls b
            return escKey :: again
        else
          let second ← loadEsc 1
          if second = byteOf 'O' then
            setEscLen 0
            return handleSs3 b
          else if 0x40 ≤ b ∧ b ≤ 0x7E then
            let keys ← handleCsiAt
            setEscLen 0
            return keys
          else if (← get).escLen ≥ escSize then
            setEscLen 0
            return []
          else return []
      else if b = 0x1b then
        storeEsc 0 b
        setEscLen 1
        return []
      else textByte b

/-- A `FeedByte` may call itself once. -/
def feedDepth : ℕ := 2

/-- The loop of `FlushEsc`, with `left` bytes to replay from `i` on. -/
def replay (saved : Bytes) : (left i : ℕ) → EscM (List InputKey)
  | 0, _ => return []
  | left + 1, i => do
      let b ← fetch .outside saved i
      let keys ← feedByteAt feedDepth b
      let rest ← replay saved left (i + 1)
      return keys ++ rest

/-- `FlushEsc`.  `stack` is what `saved` holds before anything is written to it. -/
def flushEscAt (stack : Vector UInt8 escSize) : EscM (List InputKey) := do
  let s ← get
  let saved ← onLocal stack.toList (copyFrom .outside s.esc s.escLen 0 0)
  setEscLen 0
  let keys ← replay saved.2 (s.escLen - 1) 1
  return escKey :: keys

/-- What `ShimInReset` does to the decoder. -/
def resetEsc : EscM Unit := modify fun s => { s with escLen := 0, utf8Need := 0 }

/-! ## Sequences of calls -/

/-- What can happen to the decoder from outside. -/
inductive EscOp where
  | byte (b : UInt8)
  | timeout (stack : Vector UInt8 escSize)
  | reset

def EscOp.run : EscOp → EscM (List InputKey)
  | byte b => feedByteAt feedDepth b
  | timeout stack => do
      -- `PumpInput` calls `FlushEsc` only when a sequence is open.
      if (← get).escLen > 0 then flushEscAt stack else return []
  | reset => do
      resetEsc
      return []

def runOps : List EscOp → EscM (List InputKey)
  | [] => return []
  | op :: ops => do
      let keys ← op.run
      let rest ← runOps ops
      return keys ++ rest

/-- The same call on the decoder of `Keys.lean`. -/
def EscOp.decode : EscOp → Decoder → Decoder × List InputKey
  | byte b, d => feedByte d b
  | timeout _, d =>
      if d.esc = [] then (d, [])
      else
        let fed := feedBytes { d with esc := [] } (d.esc.drop 1)
        (fed.1, escKey :: fed.2)
  | reset, d => ({ d with esc := [], utf8Need := 0 }, [])

def decodeOps : List EscOp → Decoder → Decoder × List InputKey
  | [], d => (d, [])
  | op :: ops, d =>
      let rest := decodeOps ops (op.decode d).1
      (rest.1, (op.decode d).2 ++ rest.2)

/-! ## The invariant -/

/-- The buffer between two calls. -/
structure EscBounded (s : EscState) : Prop where
  size : s.esc.length = escSize
  short : s.escLen ≤ 23
  first : 0 < s.escLen → s.esc[0]? = some 0x1b
  second : s.escLen = 2 → s.esc[1]? = some (byteOf '[') ∨ s.esc[1]? = some (byteOf 'O')
  later : 3 ≤ s.escLen → s.esc[1]? = some (byteOf '[')


/-! ## Single accesses -/

section Rules

variable {s : EscState} {b v : UInt8} {i n : ℕ} {fault : EscFault → Prop}

theorem wp_loadEsc {post : UInt8 → EscState → Prop} (h : s.esc[i]? = some v) (hpost : post v s) :
    wp (loadEsc i) post fault s := by
  rw [loadEsc, wp_zoom]
  exact wp_load h hpost

theorem wp_storeEsc {post : Unit → EscState → Prop} (h : i < s.esc.length)
    (hpost : post () { s with esc := s.esc.set i b }) : wp (storeEsc i b) post fault s := by
  rw [storeEsc, wp_zoom]
  exact wp_store h hpost

@[simp] theorem wp_setEscLen {post : PUnit → EscState → Prop} (n : ℕ) :
    wp (setEscLen n) post fault = fun s => post ⟨⟩ { s with escLen := n } :=
  rfl

end Rules

theorem uintnPred_succ {n : ℕ} (h : n < escSize) : uintnPred (n + 1) = n := by
  rw [uintnPred, show n + 1 + (2 ^ 64 - 1) = n + 2 ^ 64 by omega, Nat.add_mod_right,
    Nat.mod_eq_of_lt (h.trans (by decide))]

/-! ## `HandleCsi` -/

section Csi

variable {s : EscState} {fault : EscFault → Prop}

/-- The digit loop, on cells that are all in range. -/
theorem wp_csiDigits {post : UInt64 → EscState → Prop} {left i : ℕ} {num : UInt64}
    (hi : i + left ≤ s.esc.length)
    (hpost : post ((((s.esc.drop i).take left).takeWhile isDigit).foldl
      (fun num b => num * 10 + (b - byteOf '0').toUInt64) num) s) :
    wp (csiDigits left i num) post fault s := by
  induction left generalizing i num with
  | zero => exact hpost
  | succ left ih =>
      have hv : s.esc[i]? = some s.esc[i] := List.getElem?_eq_getElem (by omega)
      have hcons : (s.esc.drop i).take (left + 1) = s.esc[i] :: (s.esc.drop (i + 1)).take left := by
        rw [List.drop_eq_getElem_cons (by omega), List.take_succ_cons]
      rw [hcons, List.takeWhile_cons] at hpost
      rw [csiDigits, wp_bind]
      apply wp_loadEsc hv
      apply wp.ite
      · intro hdigit
        rw [if_pos hdigit] at hpost
        exact ih (by omega) hpost
      · intro hother
        rw [if_neg hother] at hpost
        exact hpost

/-- `HandleCsi` on a sequence of at least three bytes. -/
theorem wp_handleCsiAt {post : List InputKey → EscState → Prop} (hsize : s.esc.length = escSize)
    (hlong : 3 ≤ s.escLen) (hfits : s.escLen ≤ escSize)
    (hpost : post (handleCsi (s.esc.take s.escLen)) s) : wp handleCsiAt post fault s := by
  obtain ⟨n, hn⟩ : ∃ n, s.escLen = n + 1 := ⟨s.escLen - 1, by omega⟩
  have hv : s.esc[n]? = some s.esc[n] := List.getElem?_eq_getElem (by omega)
  have hlast : s.esc.take s.escLen = s.esc.take n ++ [s.esc[n]] := by
    rw [hn, List.take_add_one, hv, Option.toList_some]
  have hbetween : ((s.esc.take s.escLen).drop 2).dropLast = (s.esc.drop 2).take (n - 2) := by
    rw [hlast, List.drop_append_of_le_length (by rw [List.length_take]; omega),
      List.dropLast_concat, List.drop_take]
  rw [handleCsi, csiNum, hbetween, hlast, List.getLastD_concat] at hpost
  rw [handleCsiAt]
  simp only [wp_bind, wp_get, hn, uintnPred_succ (show n < escSize by omega)]
  apply wp_loadEsc hv
  apply wp_csiDigits (by omega)
  exact hpost

end Csi


/-! ## `FeedByte` -/

/-- A call that ends like one on a decoder, with the buffer in order. -/
def Fed (out : Decoder × List InputKey) (keys : List InputKey) (s : EscState) : Prop :=
  EscBounded s ∧ (s.decoder, keys) = out

section Feed

variable {s : EscState} {b : UInt8} {n calls : ℕ} {fault : EscFault → Prop}

/-- An empty buffer is in order whatever is left in it. -/
theorem escBounded_empty (hsize : s.esc.length = escSize) : EscBounded { s with escLen := 0 } where
  size := hsize
  short := Nat.zero_le 23
  first h := absurd h (Nat.lt_irrefl 0)
  second h := by simp at h
  later h := by simp at h

/-- The start of a sequence. -/
theorem escBounded_one (hsize : s.esc.length = escSize) (hfirst : s.esc[0]? = some 0x1b) :
    EscBounded { s with escLen := 1 } where
  size := hsize
  short := by simp
  first _ := hfirst
  second h := by simp at h
  later h := by simp at h

theorem decoder_empty (s : EscState) :
    ({ s with escLen := 0 } : EscState).decoder = { s.decoder with esc := [] } := by
  rw [EscState.decoder, List.take_zero]
  rfl

theorem groundByte_esc {d : Decoder} (hb : b ≠ 0x1b) : (groundByte d b).1.esc = d.esc := by
  unfold groundByte plainByte
  rw [if_neg hb]
  repeat' split
  all_goals rfl

/-- Outside a sequence `FeedByte` does not call itself. -/
theorem feedByteAt_ground (hbounded : EscBounded s) (hempty : s.escLen = 0) :
    wp (feedByteAt (calls + 1) b) (Fed (groundByte s.decoder b)) fault s := by
  have hs : s = { s with escLen := 0 } := by rw [← hempty]
  have hdecoder : s.decoder.esc = [] := by rw [EscState.decoder, hempty, List.take_zero]
  rw [feedByteAt]
  simp only [wp_bind, wp_get, hempty, gt_iff_lt, Nat.lt_irrefl, if_false]
  apply wp.ite
  · intro hb
    subst hb
    rw [wp_bind]
    apply wp_storeEsc (by rw [hbounded.size]; decide)
    have hzero : (s.esc.set 0 0x1b)[0]? = some 0x1b :=
      List.getElem?_set_self (by rw [hbounded.size]; decide)
    refine ⟨escBounded_one ?_ hzero, ?_⟩
    · rw [List.length_set, hbounded.size]
    · rw [groundByte, if_pos rfl, EscState.decoder, List.take_add_one, hzero, List.take_zero]
      rfl
  · intro hb
    have hesc := groundByte_esc (d := s.decoder) hb
    rw [textByte]
    simp only [wp_bind, wp_get, wp_set, wp_pure]
    refine ⟨⟨hbounded.size, hbounded.short, hbounded.first, hbounded.second, hbounded.later⟩, ?_⟩
    rw [Prod.mk.injEq]
    refine ⟨?_, rfl⟩
    have htake : s.esc.take s.escLen = (groundByte s.decoder b).1.esc := by
      rw [hesc]
      rfl
    rw [EscState.decoder, EscState.withText, htake]

/-- The byte behind a sequence, if there is room. -/
theorem wp_appendEsc {post : Unit → EscState → Prop} (hsize : s.esc.length = escSize)
    (hroom : s.escLen < escSize)
    (hpost : post () { s with esc := s.esc.set s.escLen b, escLen := s.escLen + 1 }) :
    wp (appendEsc b) post fault s := by
  rw [appendEsc]
  simp only [wp_bind, wp_get, if_pos hroom]
  apply wp_storeEsc (by omega)
  exact hpost

/-- The array after the append, and what `decoder` makes of it. -/
theorem take_append_esc (hsize : s.esc.length = escSize) (hroom : s.escLen < escSize) :
    (s.esc.set s.escLen b).take (s.escLen + 1) = s.decoder.esc ++ [b] := by
  rw [List.take_add_one, List.take_set_of_le (Nat.le_refl _),
    List.getElem?_set_self (by omega)]
  rfl

end Feed


section Sequence

variable {s : EscState} {b second : UInt8} {calls : ℕ} {fault : EscFault → Prop}

/-- The second byte of a sequence. -/
theorem feedByteAt_second (hbounded : EscBounded s) (hone : s.escLen = 1) :
    wp (feedByteAt (calls + 2) b) (Fed (feedByte s.decoder b)) fault s := by
  have hsize := hbounded.size
  have hfirst : s.esc[0]? = some 0x1b := hbounded.first (by omega)
  have hdecoder : s.decoder.esc = [0x1b] := by
    rw [EscState.decoder, hone, List.take_add_one, hfirst, List.take_zero]
    rfl
  have htake := take_append_esc (b := b) hsize (by rw [hone]; decide)
  rw [hone] at htake
  rw [feedByteAt, feedByte, hdecoder]
  simp only [wp_bind, wp_get, hone]
  apply wp.ite _ (fun h => absurd Nat.one_pos h)
  intro _
  rw [wp_bind]
  apply wp_appendEsc hsize (by rw [hone]; decide)
  simp only [wp_bind, wp_get, hone, if_true, List.cons_ne_nil, if_false, List.length_cons,
    List.length_nil, List.cons_append, List.nil_append, if_pos (show (0 + 1 < escSize) by decide)]
  apply wp.ite
  · intro hopens
    have hb : (s.esc.set 1 b)[1]? = some b := List.getElem?_set_self (by rw [hsize]; decide)
    rw [if_pos hopens]
    refine ⟨⟨?_, by simp, ?_, ?_, by simp⟩, ?_⟩
    · rw [List.length_set, hsize]
    · intro _
      rw [List.getElem?_set_ne (by decide), hfirst]
    · intro _
      rcases hopens with h | h
      · exact .inl (hb.trans (congrArg some h))
      · exact .inr (hb.trans (congrArg some h))
    · rw [EscState.decoder, htake, hdecoder]
      rfl
  · intro hother
    rw [if_neg hother]
    -- The buffer is empty again before the call.
    have hempty : EscBounded { s with esc := s.esc.set 1 b, escLen := 0 } :=
      escBounded_empty (s := { s with esc := s.esc.set 1 b }) (by rw [List.length_set, hsize])
    simp only [wp_bind, wp_setEscLen, wp_pure]
    apply (feedByteAt_ground hempty rfl).imp
    rintro keys t ⟨ht, hfed⟩
    refine ⟨ht, ?_⟩
    rw [decoder_empty (s := { s with esc := s.esc.set 1 b })] at hfed
    rw [Prod.mk.injEq] at hfed ⊢
    exact ⟨hfed.1, congrArg (escKey :: ·) hfed.2⟩

/-- A byte behind `ESC [` or `ESC O`. -/
theorem feedByteAt_later (hbounded : EscBounded s) (htwo : 2 ≤ s.escLen) :
    wp (feedByteAt (calls + 1) b) (Fed (feedByte s.decoder b)) fault s := by
  have hsize := hbounded.size
  have hshort := hbounded.short
  have hroom : s.escLen < escSize := Nat.lt_succ_of_le hshort
  have htake := take_append_esc (b := b) hsize hroom
  have hlength : s.decoder.esc.length = s.escLen := by
    rw [EscState.decoder, List.length_take]
    omega
  have hne : s.decoder.esc ≠ [] := List.ne_nil_of_length_pos (by omega)
  -- `esc[1]` was stored when the second byte came, so reading it is defined
  obtain ⟨second, hsecond, hletter⟩ :
      ∃ second, s.esc[1]? = some second ∧ (second = byteOf '[' ∨ second = byteOf 'O') := by
    rcases Nat.lt_or_ge s.escLen 3 with hlt | hge
    · rcases hbounded.second (by omega) with h | h
      · exact ⟨_, h, .inl rfl⟩
      · exact ⟨_, h, .inr rfl⟩
    · exact ⟨_, hbounded.later hge, .inl rfl⟩
  have hkept : (s.esc.set s.escLen b)[1]? = some second := by
    rw [List.getElem?_set_ne (by omega), hsecond]
  have hread : (s.decoder.esc ++ [b]).getD 1 0 = second := by
    rw [← htake, List.getD_eq_getElem?_getD, List.getElem?_take_of_lt (by omega), hkept]
    rfl
  have hcleared : EscBounded { s with esc := s.esc.set s.escLen b, escLen := 0 } :=
    escBounded_empty (s := { s with esc := s.esc.set s.escLen b }) (by rw [List.length_set, hsize])
  have hsizes : (s.esc.set s.escLen b).length = escSize := by rw [List.length_set, hsize]
  rw [feedByteAt, feedByte, if_neg hne]
  simp only [wp_bind, wp_get]
  apply wp.ite _ (fun h => absurd (Nat.lt_of_lt_of_le Nat.two_pos htwo) h)
  intro _
  rw [wp_bind]
  apply wp_appendEsc hsize hroom
  simp only [wp_bind, wp_get, hlength, if_pos hroom, List.length_append, List.length_singleton,
    if_neg (show ¬ s.escLen + 1 = 2 by omega), hread]
  apply wp_loadEsc hkept
  apply wp.ite
  · intro hss3
    rw [if_pos hss3]
    exact ⟨hcleared, rfl⟩
  intro hcsi
  rw [if_neg hcsi]
  apply wp.ite
  · intro hfinal
    rw [if_pos hfinal, wp_bind]
    apply wp_handleCsiAt hsizes
    · exact Nat.succ_le_succ htwo
    · exact hroom
    rw [htake]
    exact ⟨hcleared, rfl⟩
  intro hmore
  rw [if_neg hmore]
  simp only [wp_bind, wp_get]
  apply wp.ite
  · intro hfull
    rw [if_pos hfull]
    exact ⟨hcleared, rfl⟩
  · intro hspace
    -- the sequence stays open, which only a CSI can
    have hbracket : second = byteOf '[' := hletter.resolve_right hcsi
    rw [if_neg hspace]
    refine ⟨⟨hsizes, ?_, ?_, ?_, ?_⟩, ?_⟩
    · exact Nat.le_of_lt_succ (Nat.lt_of_not_le hspace)
    · intro _
      rw [List.getElem?_set_ne (by omega), hbounded.first (by omega)]
    · intro h
      exact absurd h (by simp only; omega)
    · intro _
      rw [hkept, hbracket]
    · rw [EscState.decoder, htake]
      rfl

/-- **`FeedByte`.** -/
theorem feedByteAt_spec (hbounded : EscBounded s) :
    wp (feedByteAt feedDepth b) (Fed (feedByte s.decoder b)) fault s := by
  rcases Nat.lt_or_ge 1 s.escLen with htwo | hle
  · exact feedByteAt_later hbounded htwo
  rcases Nat.le_one_iff_eq_zero_or_eq_one.mp hle with hempty | hone
  · have hdecoder : s.decoder.esc = [] := by rw [EscState.decoder, hempty, List.take_zero]
    rw [feedByte, if_pos hdecoder]
    exact feedByteAt_ground hbounded hempty
  · exact feedByteAt_second hbounded hone

end Sequence

/-! ## `FlushEsc` -/

section Flush

variable {s : EscState} {saved : Bytes} {fault : EscFault → Prop}

/-- The replay of bytes that were saved before. -/
theorem replay_spec {left i : ℕ} (hi : i + left ≤ saved.length) (hbounded : EscBounded s) :
    wp (replay saved left i) (Fed (feedBytes s.decoder ((saved.drop i).take left))) fault s := by
  induction left generalizing i s with
  | zero => exact ⟨hbounded, rfl⟩
  | succ left ih =>
      have hv : saved[i]? = some saved[i] := List.getElem?_eq_getElem (by omega)
      have hcons : (saved.drop i).take (left + 1) = saved[i] :: (saved.drop (i + 1)).take left := by
        rw [List.drop_eq_getElem_cons (by omega), List.take_succ_cons]
      rw [hcons, feedBytes, replay]
      simp only [wp_bind]
      apply wp_fetch hv
      apply (feedByteAt_spec hbounded).imp
      rintro keys t ⟨ht, hfed⟩
      rw [← hfed]
      apply (ih (by omega) ht).imp
      rintro rest u ⟨hu, hrest⟩
      refine ⟨hu, ?_⟩
      rw [← hrest]

theorem flushEscAt_spec (stack : Vector UInt8 escSize) (hbounded : EscBounded s)
    (hopen : 0 < s.escLen) :
    wp (flushEscAt stack) (Fed ((EscOp.timeout stack).decode s.decoder)) fault s := by
  have hsize := hbounded.size
  have hroom : s.escLen < escSize := Nat.lt_succ_of_le hbounded.short
  have hstack : stack.toList.length = escSize := stack.length_toList
  have hlength : s.decoder.esc.length = s.escLen := by
    rw [EscState.decoder, List.length_take]
    omega
  have hne : s.decoder.esc ≠ [] := List.ne_nil_of_length_pos (by omega)
  rw [flushEscAt, EscOp.decode, if_neg hne]
  simp only [wp_bind, wp_get]
  apply wp_onLocal
  have hcopy : copyFrom EscFault.outside s.esc s.escLen 0 0 stack.toList =
      .ok ((), Cells.written stack.toList 0 s.decoder.esc) :=
    copyFrom_run EscFault.outside (by omega) (by omega)
  apply wp_of_run hcopy
  have hsaved : (Cells.written stack.toList 0 s.decoder.esc).length = escSize := by
    rw [length_written (by omega), hstack]
  have htake : (Cells.written stack.toList 0 s.decoder.esc).take s.escLen = s.decoder.esc := by
    rw [Cells.written, List.take_zero, List.nil_append, ← hlength, List.take_left]
  have htail : ((Cells.written stack.toList 0 s.decoder.esc).drop 1).take (s.escLen - 1) =
      s.decoder.esc.drop 1 := by
    rw [← List.drop_take, htake]
  have hreplay : wp (replay (Cells.written stack.toList 0 s.decoder.esc) (s.escLen - 1) 1)
      (Fed (feedBytes ({ s with escLen := 0 } : EscState).decoder
        (((Cells.written stack.toList 0 s.decoder.esc).drop 1).take (s.escLen - 1)))) fault
      { s with escLen := 0 } :=
    replay_spec (by omega) (escBounded_empty hsize)
  rw [decoder_empty, htail] at hreplay
  simp only [wp_setEscLen]
  apply hreplay.imp
  rintro keys t ⟨ht, hfed⟩
  refine ⟨ht, ?_⟩
  rw [← hfed]

end Flush

/-- `FlushEsc` on the shim does to its decoder and its keys what the array does. -/
theorem flushEsc_decode {σ : Type} (fw : Firmware σ) (shim : Shim σ)
    (stack : Vector UInt8 escSize) (hopen : shim.keyboard.decoder.esc ≠ []) :
    (flushEsc fw shim).keyboard.decoder =
        ((EscOp.timeout stack).decode shim.keyboard.decoder).1 ∧
      (flushEsc fw shim).keyboard.keys = shim.keyboard.keys.pushAll
        (((EscOp.timeout stack).decode shim.keyboard.decoder).2.map keyData) := by
  rw [EscOp.decode, if_neg hopen]
  constructor
  · rw [flushEsc, feedAll_decoder, pushKey_decoder]
  · rw [flushEsc, feedAll_keys, pushKey_decoder, pushKey_keys, ← RingBuffer.Ring.pushAll_append]
    rfl

/-! ## Any sequence of calls -/

section Run

variable {s : EscState} {fault : EscFault → Prop}

theorem escOp_spec (op : EscOp) (hbounded : EscBounded s) :
    wp op.run (Fed (op.decode s.decoder)) fault s := by
  cases op with
  | byte b => exact feedByteAt_spec hbounded
  | timeout stack =>
      rw [EscOp.run]
      simp only [wp_bind, wp_get]
      apply wp.ite
      · intro hopen
        exact flushEscAt_spec stack hbounded hopen
      · intro hclosed
        have hdecoder : s.decoder.esc = [] := by
          rw [EscState.decoder, Nat.eq_zero_of_not_pos hclosed, List.take_zero]
        rw [EscOp.decode, if_pos hdecoder]
        exact ⟨hbounded, rfl⟩
  | reset =>
      have hempty := escBounded_empty (s := { s with utf8Need := 0 }) hbounded.size
      refine ⟨hempty, ?_⟩
      rw [EscState.decoder, List.take_zero]
      rfl

theorem runOps_spec (ops : List EscOp) (hbounded : EscBounded s) :
    wp (runOps ops) (Fed (decodeOps ops s.decoder)) fault s := by
  induction ops generalizing s with
  | nil => exact ⟨hbounded, rfl⟩
  | cons op ops ih =>
      rw [runOps, decodeOps]
      simp only [wp_bind]
      apply (escOp_spec op hbounded).imp
      rintro keys t ⟨ht, hfed⟩
      rw [← hfed]
      apply (ih ht).imp
      rintro rest u ⟨hu, hrest⟩
      refine ⟨hu, ?_⟩
      rw [← hrest]

end Run

theorem escBounded_new : EscBounded newEscState :=
  escBounded_empty (s := newEscState) (by decide)

/-- The array does what `Keys.lean` says, whatever the calls. -/
theorem runOps_decodes (ops : List EscOp) :
    ∃ s, runOps ops newEscState = .ok ((decodeOps ops newDecoder).2, s) ∧
      s.decoder = (decodeOps ops newDecoder).1 := by
  obtain ⟨keys, s, hrun, -, hfed⟩ :=
    wp.returns (runOps_spec ops escBounded_new)
  have hdecoder : newEscState.decoder = newDecoder := rfl
  rw [hdecoder] at hfed
  refine ⟨s, ?_, congrArg Prod.fst hfed⟩
  rw [hrun, ← congrArg Prod.snd hfed]

/-- **The escape buffer stays in bounds.**  After any sequence of bytes, timeouts and resets
the buffer is in order, and no access on the way was outside of an array, nor did a
`FeedByte` that was called by a `FeedByte` call itself. -/
theorem runOps_bounded (ops : List EscOp) :
    ∃ keys s, runOps ops newEscState = .ok (keys, s) ∧ EscBounded s := by
  obtain ⟨keys, s, hrun, hbounded, -⟩ :=
    wp.returns (runOps_spec ops escBounded_new)
  exact ⟨keys, s, hrun, hbounded⟩

end EfiSshServer
