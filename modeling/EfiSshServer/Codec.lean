import EfiSshServer.Reading

/-!
# The wire codec

A message is a list of typed fields: bytes, words and strings.  `wFields` writes such a
list with the helpers of `ssh.c`, and `rFields` reads one back, given the types only.
What was written ahead of a reader is read back field by field (`rFields_ahead`); on a
prefix of it the reads are right up to a first one, and from there on every read fails
(`rFields_cut`).  A string that is too long for one `memcpy` is never written to its end
(`codec_halts`).
-/

namespace EfiSshServer

/-! ## Typed fields -/

inductive FieldType
  | byte
  | word
  | string
  deriving DecidableEq, Repr

inductive Value
  | byte (v : UInt8)
  | word (v : UInt32)
  | string (d : Bytes)
  deriving DecidableEq, Repr

namespace Value

def type : Value → FieldType
  | byte _ => .byte
  | word _ => .word
  | string _ => .string

/-- A string is not too long for one `memcpy`. -/
def Fits : Value → Prop
  | string d => d.length ≤ rtInsaneLen
  | _ => True

instance : DecidablePred Fits
  | byte _ => isTrue trivial
  | word _ => isTrue trivial
  | string d => inferInstanceAs (Decidable (d.length ≤ rtInsaneLen))

/-- Such a string is also shorter than its length word can say. -/
theorem length_lt_of_fits {d : Bytes} (h : (string d).Fits) : d.length < 2 ^ 32 :=
  lt_of_le_of_lt h (by decide)

/-- The room a field takes in a buffer. -/
def size : Value → ℕ
  | byte _ => 1
  | word _ => 4
  | string d => 4 + d.length

/-- The bytes of a field on the wire. -/
def wire : Value → Bytes
  | byte v => [v]
  | word v => putU32 v
  | string d => hashStr d

theorem length_wire (v : Value) : v.wire.length = v.size := by
  cases v with
  | byte v => rfl
  | word v => rfl
  | string d => exact length_hashStr d

end Value

/-- What a failed read returns: zero, or the empty string. -/
def FieldType.none : FieldType → Value
  | byte => .byte 0
  | word => .word 0
  | string => .string []

def wField (b : WBuf) : Value → WBuf
  | .byte v => b.wByte v
  | .word v => b.wU32 v
  | .string d => b.wStr d

def wFields (b : WBuf) (fields : List Value) : WBuf := fields.foldl wField b

def Field.map {α β : Type} (f : α → β) (x : Field α) : Field β := ⟨f x.val, x.rest⟩

def rField (r : RBuf) : FieldType → Field Value
  | .byte => (rByte r).map .byte
  | .word => (rU32 r).map .word
  | .string => (rStr r).map .string

/-- The values read one after the other, each with the reader after it. -/
def rFields (r : RBuf) : List FieldType → List (Field Value)
  | [] => []
  | t :: types => rField r t :: rFields (rField r t).rest types

/-- The reader after a list of reads. -/
def afterFields (r : RBuf) (types : List FieldType) : RBuf :=
  types.foldl (fun r t => (rField r t).rest) r

def wires (fields : List Value) : Bytes := fields.flatMap Value.wire

def sizes (fields : List Value) : ℕ := (fields.map Value.size).sum

theorem length_wires (fields : List Value) : (wires fields).length = sizes fields := by
  induction fields with
  | nil => rfl
  | cons v fields ih =>
    rw [wires, List.flatMap_cons, List.length_append, Value.length_wire]
    exact congrArg (v.size + ·) ih

/-! ## Writing -/

section Writing

variable {cap : ℕ} {d : Bytes}

theorem wField_eq {v : Value} (hv : v.Fits) (h : d.length + v.size ≤ cap) :
    wField ⟨d, cap, false, false⟩ v = ⟨d ++ v.wire, cap, false, false⟩ := by
  cases v with
  | byte v => exact WBuf.wBytes_eq h (by rw [List.length_singleton]; decide)
  | word v => exact WBuf.wU32_eq v h
  | string x => exact WBuf.wStr_eq h hv

/-- Fields that fit are all written. -/
theorem wFields_eq {fields : List Value} (hfits : ∀ v ∈ fields, v.Fits)
    (h : d.length + sizes fields ≤ cap) :
    wFields ⟨d, cap, false, false⟩ fields = ⟨d ++ wires fields, cap, false, false⟩ := by
  induction fields generalizing d with
  | nil => simp [wFields, wires]
  | cons v fields ih =>
    have hsplit : d.length + (v.size + sizes fields) ≤ cap := h
    have hleft : ∀ w ∈ fields, w.Fits := fun w hw => hfits w (List.mem_cons_of_mem v hw)
    rw [wFields, List.foldl_cons, wField_eq (hfits v List.mem_cons_self) (by omega), ← wFields,
      ih hleft, wires, wires, List.flatMap_cons, List.append_assoc]
    rw [List.length_append, Value.length_wire]
    omega

/-- A failed writer stays as it is. -/
theorem wBytes_of_err {b : WBuf} (h : b.err = true) (x : Bytes) : b.wBytes x = b := by
  obtain ⟨data, cap, err, halted⟩ := b
  cases (h : err = true)
  rw [WBuf.wBytes, if_pos (Or.inl rfl), ite_self]

theorem wField_of_err {b : WBuf} (h : b.err = true) (v : Value) : wField b v = b := by
  cases v with
  | byte v => exact wBytes_of_err h _
  | word v => exact wBytes_of_err h _
  | string x =>
    rw [wField, WBuf.wStr, WBuf.wU32, wBytes_of_err h, wBytes_of_err h]

theorem wFields_of_err {b : WBuf} (h : b.err = true) (fields : List Value) :
    wFields b fields = b := by
  induction fields with
  | nil => rfl
  | cons v fields ih => rwa [wFields, List.foldl_cons, wField_of_err h]

theorem wBytes_overflow {x : Bytes} (h : cap < d.length + x.length) :
    (WBuf.mk d cap false false).wBytes x = ⟨d, cap, true, false⟩ := by
  rw [WBuf.wBytes, if_neg Bool.false_ne_true, if_pos (Or.inr h)]

/-- A field that does not fit sets the error; of a string the length word may still be
written. -/
theorem wField_overflow {v : Value} (hd : d.length ≤ cap) (h : cap < d.length + v.size) :
    ∃ x, wField ⟨d, cap, false, false⟩ v = ⟨d ++ x, cap, true, false⟩ ∧ x <+: v.wire ∧
      (d ++ x).length ≤ cap := by
  have hnothing : (d ++ []).length ≤ cap := by rwa [List.append_nil]
  cases v with
  | byte v =>
    refine ⟨[], ?_, List.nil_prefix, hnothing⟩
    rw [List.append_nil]
    exact wBytes_overflow h
  | word v =>
    refine ⟨[], ?_, List.nil_prefix, hnothing⟩
    rw [List.append_nil]
    exact wBytes_overflow h
  | string x =>
    have hsize : cap < d.length + (4 + x.length) := h
    rw [wField, WBuf.wStr, WBuf.wU32]
    rcases Nat.lt_or_ge cap (d.length + 4) with hword | hword
    · refine ⟨[], ?_, List.nil_prefix, hnothing⟩
      rw [wBytes_overflow (by rwa [length_putU32]), List.append_nil]
      exact wBytes_of_err rfl x
    · have hroom : (d ++ putU32 (UInt32.ofNat x.length)).length ≤ cap := by
        rwa [List.length_append, length_putU32]
      refine ⟨putU32 (UInt32.ofNat x.length), ?_, List.prefix_append _ _, hroom⟩
      rw [← WBuf.wU32, WBuf.wU32_eq _ hword]
      refine wBytes_overflow ?_
      rw [List.length_append, length_putU32]
      omega

/-- A buffer that is too small ends with the error set, filled with a part of the message. -/
theorem wFields_overflow {fields : List Value} (hfits : ∀ v ∈ fields, v.Fits)
    (hd : d.length ≤ cap) (h : cap < d.length + sizes fields) :
    ∃ x, wFields ⟨d, cap, false, false⟩ fields = ⟨d ++ x, cap, true, false⟩ ∧
      x <+: wires fields ∧
      (d ++ x).length ≤ cap := by
  induction fields generalizing d with
  | nil => exact absurd h (Nat.not_lt.mpr hd)
  | cons v fields ih =>
    have hsplit : cap < d.length + (v.size + sizes fields) := h
    rw [wFields, List.foldl_cons, ← wFields, wires, List.flatMap_cons]
    rcases Nat.lt_or_ge cap (d.length + v.size) with hfirst | hfirst
    · obtain ⟨x, hx, hinit, hroom⟩ := wField_overflow hd hfirst
      refine ⟨x, ?_, hinit.trans (List.prefix_append _ _), hroom⟩
      rw [hx, wFields_of_err rfl]
    · have hlength : (d ++ v.wire).length = d.length + v.size := by
        rw [List.length_append, Value.length_wire]
      obtain ⟨x, hx, hinit, hroom⟩ :=
        ih (d := d ++ v.wire) (fun w hw => hfits w (List.mem_cons_of_mem v hw))
          (hlength.trans_le hfirst) (by rw [hlength]; omega)
      refine ⟨v.wire ++ x, ?_, (List.prefix_append_right_inj _).mpr hinit, ?_⟩
      · rw [wField_eq (hfits v List.mem_cons_self) hfirst, hx, List.append_assoc]
      · rwa [← List.append_assoc]

end Writing

/-! ## Reading what was written -/

section Reading

variable {r : RBuf} {rest : Bytes}

theorem rField_ahead {v : Value} (hfits : v.Fits) (h : r.Ahead (v.wire ++ rest)) :
    (rField r v.type).val = v ∧ (rField r v.type).rest.Ahead rest := by
  cases v with
  | byte v =>
    obtain ⟨hval, hrest⟩ := RBuf.Ahead.rByte h
    exact ⟨congrArg Value.byte hval, hrest⟩
  | word v =>
    obtain ⟨hval, hrest⟩ := RBuf.Ahead.rU32 h
    exact ⟨congrArg Value.word hval, hrest⟩
  | string d =>
    obtain ⟨hval, hrest⟩ := RBuf.Ahead.rStr (Value.length_lt_of_fits hfits) h
    exact ⟨congrArg Value.string hval, hrest⟩

theorem rFields_ahead {fields : List Value} (hfits : ∀ v ∈ fields, v.Fits)
    (h : r.Ahead (wires fields ++ rest)) :
    (rFields r (fields.map Value.type)).map Field.val = fields ∧
      (afterFields r (fields.map Value.type)).Ahead rest := by
  induction fields generalizing r with
  | nil => exact ⟨rfl, h⟩
  | cons v fields ih =>
    rw [wires, List.flatMap_cons, List.append_assoc] at h
    obtain ⟨hval, hrest⟩ := rField_ahead (hfits v List.mem_cons_self) h
    obtain ⟨hvals, hafter⟩ := ih (fun w hw => hfits w (List.mem_cons_of_mem v hw)) hrest
    refine ⟨?_, hafter⟩
    rw [List.map_cons, rFields, List.map_cons, hval, hvals]

end Reading

/-! ## Reading a part of it -/

section Cut

variable {r : RBuf} {p : Bytes}

/-- The field of a failed read. -/
structure Failed (f : Field Value) (t : FieldType) : Prop where
  err : f.rest.err = true
  val : f.val = t.none

/-- The error is sticky. -/
theorem rU32_of_err (h : r.err = true) : rU32 r = ⟨0, { r with err := true }⟩ :=
  if_pos (Or.inl h)

theorem rStr_of_rU32_err (h : (rU32 r).rest.err = true) :
    (rStr r).rest.err = true ∧ (rStr r).val = [] := by
  unfold rStr
  simp only
  rw [if_pos (Or.inl h)]
  exact ⟨rfl, rfl⟩

theorem rField_of_err (h : r.err = true) (t : FieldType) : Failed (rField r t) t := by
  cases t with
  | byte =>
    rw [rField, rByte, if_pos (Or.inl h)]
    exact ⟨rfl, rfl⟩
  | word =>
    rw [rField, rU32_of_err h]
    exact ⟨rfl, rfl⟩
  | string =>
    obtain ⟨herr, hval⟩ := rStr_of_rU32_err (r := r) (by rw [rU32_of_err h])
    exact ⟨herr, congrArg Value.string hval⟩

theorem rFields_of_err (h : r.err = true) (types : List FieldType) :
    List.Forall₂ Failed (rFields r types) types ∧ (afterFields r types).err = true := by
  induction types generalizing r with
  | nil => exact ⟨.nil, h⟩
  | cons t types ih =>
    have hfailed := rField_of_err h t
    obtain ⟨hrest, hafter⟩ := ih hfailed.err
    exact ⟨.cons hfailed hrest, hafter⟩

theorem RBuf.Ahead.length (h : r.Ahead p) : r.pos + p.length = r.data.length := by
  have hlength := congrArg List.length h.remaining
  rw [RBuf.remaining, List.length_drop] at hlength
  have hle := h.pos_le
  omega

/-- A field that is cut off fails: in its length word, or in its body. -/
theorem rField_cut {v : Value} (hfits : v.Fits) (h : r.Ahead p) (hinit : p <+: v.wire)
    (hcut : p.length < v.size) : Failed (rField r v.type) v.type := by
  have hlength := h.length
  cases v with
  | byte v =>
    have hone : p.length < 1 := hcut
    rw [Value.type, rField, rByte, if_pos (Or.inr (by omega))]
    exact ⟨rfl, rfl⟩
  | word v =>
    have hfour : p.length < 4 := hcut
    rw [Value.type, rField, rU32, if_pos (Or.inr (by omega))]
    exact ⟨rfl, rfl⟩
  | string d =>
    have hsize : p.length < 4 + d.length := hcut
    suffices hfail : (rStr r).rest.err = true ∧ (rStr r).val = [] from
      ⟨hfail.1, congrArg Value.string hfail.2⟩
    rcases Nat.lt_or_ge p.length 4 with hword | hword
    · refine rStr_of_rU32_err ?_
      rw [rU32, if_pos (Or.inr (by omega))]
    · -- the length word is whole, so the cut is in the body
      obtain ⟨body, rfl⟩ : ∃ body, p = putU32 (UInt32.ofNat d.length) ++ body :=
        (List.prefix_of_prefix_length_le (List.prefix_append _ _) hinit hword).imp
          fun _ hbody => hbody.symm
      obtain ⟨hval, hbody⟩ := h.rU32
      have hbodyLength := hbody.length
      have hd : (rU32 r).val.toNat = d.length := by
        rw [hval, UInt32.toNat_ofNat', Nat.mod_eq_of_lt (Value.length_lt_of_fits hfits)]
      rw [List.length_append, length_putU32] at hsize
      rw [rStr]
      simp only [hd]
      rw [if_pos (Or.inr (by omega))]
      exact ⟨rfl, rfl⟩

/-- The reads return the fields up to a first one, and fail from there on. -/
def BreaksOff (r : RBuf) (fields : List Value) : Prop :=
  ∃ done v left reads fails, fields = done ++ v :: left ∧
    rFields r (fields.map Value.type) = reads ++ fails ∧
    reads.map Field.val = done ∧ (∀ f ∈ reads, f.rest.err = false) ∧
    List.Forall₂ Failed fails ((v :: left).map Value.type)

theorem rFields_cut {fields : List Value} (hfits : ∀ v ∈ fields, v.Fits) (h : r.Ahead p)
    (hinit : p <+: wires fields) (hcut : p.length < sizes fields) :
    BreaksOff r fields ∧ (afterFields r (fields.map Value.type)).err = true := by
  induction fields generalizing r p with
  | nil => exact absurd hcut (Nat.not_lt_zero _)
  | cons v fields ih =>
    have hv := hfits v List.mem_cons_self
    rw [wires, List.flatMap_cons] at hinit
    have hwire := v.length_wire
    rcases Nat.lt_or_ge p.length v.size with hfirst | hfirst
    · have hhead : p <+: v.wire :=
        List.prefix_of_prefix_length_le hinit (List.prefix_append _ _) (by omega)
      have hfailed := rField_cut hv h hhead hfirst
      obtain ⟨hrest, hafter⟩ := rFields_of_err hfailed.err (fields.map Value.type)
      exact ⟨⟨[], v, fields, [], _, rfl, rfl, rfl, by simp, .cons hfailed hrest⟩, hafter⟩
    · obtain ⟨p', rfl⟩ : ∃ p', p = v.wire ++ p' :=
        (List.prefix_of_prefix_length_le (List.prefix_append _ _) hinit (by omega)).imp
          fun _ hp => hp.symm
      obtain ⟨hval, hrest⟩ := rField_ahead hv h
      have hcut' : p'.length < sizes fields := by
        have hsizes : (v.wire ++ p').length < v.size + sizes fields := hcut
        rw [List.length_append] at hsizes
        omega
      obtain ⟨⟨done, w, left, reads, fails, rfl, hreads, hvals, hok, hfails⟩, hafter⟩ :=
        ih (fun w hw => hfits w (List.mem_cons_of_mem v hw)) hrest
          ((List.prefix_append_right_inj _).mp hinit) hcut'
      refine ⟨⟨v :: done, w, left, rField r v.type :: reads, fails, rfl, ?_, ?_, ?_, hfails⟩,
        hafter⟩
      · rw [List.map_cons, rFields, hreads, List.cons_append]
      · rw [List.map_cons, hval, hvals]
      · intro f hf
        rcases List.mem_cons.mp hf with rfl | hf
        · exact hrest.err
        · exact hok f hf

end Cut

/-! ## The slices -/

/-- `x` is the part of `data` that ends at `stop`. -/
structure Slice (data x : Bytes) (stop : ℕ) : Prop where
  start : x.length ≤ stop
  stop_le : stop ≤ data.length
  eq : (data.drop (stop - x.length)).take x.length = x

theorem rField_data (r : RBuf) (t : FieldType) : (rField r t).rest.data = r.data := by
  have hword : (rU32 r).rest.data = r.data := by
    unfold rU32
    split <;> rfl
  cases t with
  | byte =>
    rw [rField, rByte]
    split <;> rfl
  | word => exact hword
  | string =>
    rw [rField, rStr]
    simp only
    split
    · exact hword
    · exact hword

theorem afterFields_data (r : RBuf) (types : List FieldType) :
    (afterFields r types).data = r.data := by
  induction types generalizing r with
  | nil => rfl
  | cons t types ih => exact (ih _).trans (rField_data r t)

theorem rStr_slice {r : RBuf} (h : (rStr r).rest.err = false) :
    Slice r.data (rStr r).val (rStr r).rest.pos := by
  have hdata : (rU32 r).rest.data = r.data := rField_data r .word
  unfold rStr at h ⊢
  simp only at h ⊢
  split at h
  · cases h
  · next hok =>
    rw [not_or, Nat.not_lt, Bool.not_eq_true, hdata] at hok
    rw [if_neg (by simpa [hok.1, hdata] using hok.2), hdata]
    have hlength : ((r.data.drop (rU32 r).rest.pos).take (rU32 r).val.toNat).length =
        (rU32 r).val.toNat := by
      rw [List.length_take, List.length_drop]
      omega
    refine ⟨hlength.trans_le (Nat.le_add_left _ _), hok.2, ?_⟩
    simp only [hlength, Nat.add_sub_cancel]

/-- Every string read without an error lies in the bytes given to the reader. -/
theorem rFields_slice {r : RBuf} {types : List FieldType} {f : Field Value} {x : Bytes}
    (hmem : f ∈ rFields r types) (hval : f.val = .string x) (hok : f.rest.err = false) :
    Slice r.data x f.rest.pos := by
  induction types generalizing r with
  | nil => cases hmem
  | cons t types ih =>
    rcases List.mem_cons.mp hmem with rfl | hmem
    · cases t with
      | byte => cases hval
      | word => cases hval
      | string =>
        have hx : (rStr r).val = x := Value.string.inj hval
        rw [← hx]
        exact rStr_slice hok
    · rw [← rField_data r t]
      exact ih hmem

/-! ## The round trip -/

/-- What the writer leaves in a buffer of `cap` bytes for a list of fields, and what the
readers make of it: all of it, or any proper prefix `p`. -/
theorem codec_roundTrip (fields : List Value) (hfits : ∀ v ∈ fields, v.Fits) (cap : ℕ) :
    let w := wFields (wInit cap) fields
    let types := fields.map Value.type
    w.halted = false ∧
    (sizes fields ≤ cap →
      w.err = false ∧
      (rFields (rInit w.data) types).map Field.val = fields ∧
      (afterFields (rInit w.data) types).err = false ∧
      (afterFields (rInit w.data) types).pos = w.data.length ∧
      ∀ p, p <+: w.data → p ≠ w.data →
        (afterFields (rInit p) types).err = true ∧
        BreaksOff (rInit p) fields ∧
        ∀ f ∈ rFields (rInit p) types, ∀ x, f.val = .string x → f.rest.err = false →
          Slice p x f.rest.pos) ∧
    (cap < sizes fields → w.err = true ∧ w.data.length ≤ cap ∧ w.data <+: wires fields) := by
  intro w types
  have hwritten : sizes fields ≤ cap → w = ⟨wires fields, cap, false, false⟩ := fun hroom =>
    wFields_eq (d := []) hfits (by simpa using hroom)
  have hpart : cap < sizes fields →
      ∃ x, w = ⟨x, cap, true, false⟩ ∧ x <+: wires fields ∧ x.length ≤ cap := fun hsmall =>
    wFields_overflow (d := []) hfits (Nat.zero_le cap) (by simpa using hsmall)
  refine ⟨?_, ?_, ?_⟩
  · rcases Nat.lt_or_ge cap (sizes fields) with hsmall | hroom
    · obtain ⟨x, hw, -⟩ := hpart hsmall
      rw [hw]
    · rw [hwritten hroom]
  · intro hroom
    rw [hwritten hroom]
    have hahead : (rInit (wires fields)).Ahead (wires fields ++ []) := by
      rw [List.append_nil]
      exact ahead_rInit _
    obtain ⟨hvals, hafter⟩ := rFields_ahead hfits hahead
    have hend : (afterFields (rInit (wires fields)) types).pos = (wires fields).length := by
      simpa [types, afterFields_data, rInit] using hafter.length
    refine ⟨rfl, hvals, hafter.err, hend, ?_⟩
    intro p hinit hne
    have hcut : p.length < sizes fields := by
      rw [← length_wires]
      exact lt_of_le_of_ne hinit.length_le fun heq => hne (hinit.eq_of_length heq)
    obtain ⟨hbreaks, herr⟩ := rFields_cut hfits (ahead_rInit p) hinit hcut
    exact ⟨herr, hbreaks, fun f hf x hx hok => rFields_slice hf hx hok⟩
  · intro hsmall
    obtain ⟨x, hw, hinit, hroom⟩ := hpart hsmall
    rw [hw]
    exact ⟨rfl, hroom, hinit⟩

/-- A name-list of one name, between a message number and a word. -/
theorem codec_roundTrip_message :
    let fields := [.byte 90, .string [97, 98], .word 5]
    ((wFields (wInit 11) fields).err = false ∧
      (rFields (rInit (wFields (wInit 11) fields).data) [.byte, .string, .word]).map Field.val =
        fields) ∧
    (wFields (wInit 8) fields).err = true :=
  have hfits : ∀ v ∈ [Value.byte 90, .string [97, 98], .word 5], v.Fits := by
    simp [Value.Fits, rtInsaneLen]
  have hwhole := (codec_roundTrip _ hfits 11).2.1 (by decide)
  ⟨⟨hwhole.1, hwhole.2.1⟩, ((codec_roundTrip _ hfits 8).2.2 (by decide)).1⟩

/-- Of a string that is too long for `memcpy` the writer leaves the length word. -/
theorem wFields_halts {d : Bytes} (h : rtInsaneLen < d.length) :
    wFields (wInit (sizes [.string d])) [.string d] =
      ⟨putU32 (UInt32.ofNat d.length), sizes [.string d], false, true⟩ := by
  have hsize : sizes [.string d] = 4 + d.length := rfl
  rw [hsize]
  exact WBuf.wStr_halts (by rw [List.length_nil, Nat.zero_add]) h

/-- One byte too long for `memcpy`: the buffer has room for all of it, and the writer stays
in the copy. -/
theorem codec_halts :
    let fields := [Value.string (List.replicate (2 ^ 26 + 1) 0)]
    (wFields (wInit (sizes fields)) fields).halted = true ∧
      (wFields (wInit (sizes fields)) fields).data.length = 4 := by
  intro fields
  have hinsane : rtInsaneLen < (List.replicate (2 ^ 26 + 1) (0 : UInt8)).length := by
    rw [List.length_replicate]
    decide
  rw [wFields_halts hinsane]
  exact ⟨rfl, length_putU32 _⟩

end EfiSshServer
