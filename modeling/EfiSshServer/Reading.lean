import Mathlib.Data.List.GetD
import EfiSshServer.Kex

/-!
# What a reader has read

A string on the wire is its length and its bytes, `hashStr`.  `Took r b r'` says that a
reader went from `r` to `r'` over exactly the bytes `b` without an error, so a chain of
reads that ends without an error has read the concatenation of what each read took
(`rStr_took` and its kin).  In the other direction `rStr_eq` and its kin give the value
of a read when the bytes ahead are known.
-/

namespace EfiSshServer

variable {r r' r'' : RBuf} {b b' x y rest rest' : Bytes}

/-! ## Words and strings on the wire -/

/-- The four bytes of a word, cut out of it again. -/
private theorem bytes_of_word (a b c d : BitVec 8) :
    let v := a.setWidth 32 <<< 24 ||| b.setWidth 32 <<< 16 ||| c.setWidth 32 <<< 8 ||| d.setWidth 32
    (v >>> 24).setWidth 8 = a ∧ (v >>> 16).setWidth 8 = b ∧ (v >>> 8).setWidth 8 = c ∧
      v.setWidth 8 = d := by
  have hout : ∀ (x : BitVec 8) (j : ℕ), 8 ≤ j → x.getLsbD j = false := fun x j hj =>
    BitVec.getLsbD_of_ge x j hj
  refine ⟨?_, ?_, ?_, ?_⟩
  all_goals
    ext i hi
    simp only [BitVec.getElem_setWidth, BitVec.getLsbD_ushiftRight, BitVec.getLsbD_or,
      BitVec.getLsbD_shiftLeft, BitVec.getLsbD_setWidth]
  · rw [hout b (24 + i - 16) (by omega), hout c (24 + i - 8) (by omega), hout d (24 + i) (by omega)]
    simp [hi, show 24 + i < 32 by omega, show i < 32 by omega, BitVec.getLsbD_eq_getElem]
  · rw [hout c (16 + i - 8) (by omega), hout d (16 + i) (by omega)]
    simp [hi, show 16 + i < 32 by omega, show 16 + i < 24 by omega, show i < 32 by omega,
      BitVec.getLsbD_eq_getElem]
  · rw [hout d (8 + i) (by omega)]
    simp [hi, show 8 + i < 32 by omega, show 8 + i < 24 by omega, show 8 + i < 16 by omega,
      show i < 32 by omega, BitVec.getLsbD_eq_getElem]
  · simp [hi, show i < 32 by omega, show i < 24 by omega, show i < 16 by omega,
      BitVec.getLsbD_eq_getElem]

/-- Writing back a word just read. -/
theorem putU32_getU32 (h : b.length = 4) : putU32 (getU32 b) = b := by
  obtain ⟨x, y, z, w, rfl⟩ : ∃ x y z w, b = [x, y, z, w] := by
    match b, h with
    | [x, y, z, w], _ => exact ⟨x, y, z, w, rfl⟩
  obtain ⟨h₁, h₂, h₃, h₄⟩ := bytes_of_word x.toBitVec y.toBitVec z.toBitVec w.toBitVec
  simp only [putU32, List.cons.injEq, and_true]
  exact ⟨UInt8.eq_of_toBitVec_eq h₁, UInt8.eq_of_toBitVec_eq h₂, UInt8.eq_of_toBitVec_eq h₃,
    UInt8.eq_of_toBitVec_eq h₄⟩

theorem length_hashStr (x : Bytes) : (hashStr x).length = 4 + x.length := by
  rw [hashStr, List.length_append, length_putU32]

/-- A string on the wire ends where its length says. -/
theorem hashStr_append_inj (hx : x.length < 2 ^ 32) (hy : y.length < 2 ^ 32)
    (h : hashStr x ++ rest = hashStr y ++ rest') : x = y ∧ rest = rest' := by
  have hword : UInt32.ofNat x.length = UInt32.ofNat y.length := by
    have hget := congrArg getU32 h
    rwa [hashStr, hashStr, List.append_assoc, List.append_assoc, getU32_putU32_append,
      getU32_putU32_append] at hget
  have hlength : x.length = y.length := by
    have hnat := congrArg UInt32.toNat hword
    rw [UInt32.toNat_ofNat', UInt32.toNat_ofNat'] at hnat
    omega
  have hsplit := List.append_inj h (by rw [length_hashStr, length_hashStr, hlength])
  exact ⟨(List.append_inj hsplit.1 rfl).2, hsplit.2⟩

/-! ## From the reads to the bytes -/

def RBuf.remaining (r : RBuf) : Bytes := r.data.drop r.pos

/-- From `r` to `r'` the bytes `b` were read. -/
structure RBuf.Took (r : RBuf) (b : Bytes) (r' : RBuf) : Prop where
  before : r.err = false
  after : r'.err = false
  remaining : r.remaining = b ++ r'.remaining

theorem RBuf.Took.trans (h : r.Took b r') (h' : r'.Took b' r'') : r.Took (b ++ b') r'' :=
  ⟨h.before, h'.after, by rw [h.remaining, h'.remaining, List.append_assoc]⟩

/-- `n` bytes further on. -/
private theorem remaining_eq {r r' : RBuf} (n : ℕ) (hdata : r'.data = r.data)
    (hpos : r'.pos = r.pos + n) : r.remaining = r.remaining.take n ++ r'.remaining := by
  rw [RBuf.remaining, RBuf.remaining, hdata, hpos, ← List.drop_drop, List.take_append_drop]

theorem rByte_took (h : (rByte r).rest.err = false) : ∃ v, r.Took [v] (rByte r).rest := by
  unfold rByte at h ⊢
  split at h
  · cases h
  · next hok =>
      rw [not_or, Nat.not_lt, Bool.not_eq_true] at hok
      rw [if_neg (by simpa [hok.1] using hok.2)]
      have hone : r.remaining.take 1 = [r.data.getD r.pos 0] := by
        rw [RBuf.remaining, List.drop_eq_getElem_cons hok.2, List.getD_eq_getElem _ _ hok.2]
        rfl
      refine ⟨r.data.getD r.pos 0, hok.1, hok.1, ?_⟩
      rw [← hone]
      exact remaining_eq 1 rfl rfl

theorem rU32_took (h : (rU32 r).rest.err = false) :
    ∃ word, word.length = 4 ∧ (rU32 r).val = getU32 word ∧ r.Took word (rU32 r).rest := by
  unfold rU32 at h ⊢
  split at h
  · cases h
  · next hok =>
      rw [not_or, Nat.not_lt, Bool.not_eq_true] at hok
      rw [if_neg (by simpa [hok.1] using hok.2)]
      refine ⟨r.remaining.take 4, ?_, ?_, hok.1, hok.1, remaining_eq 4 rfl rfl⟩
      · rw [List.length_take, RBuf.remaining, List.length_drop]
        omega
      · simp [getU32, List.getD_eq_getElem?_getD, RBuf.remaining]

theorem rStr_took (h : (rStr r).rest.err = false) :
    ∃ x, x.length < 2 ^ 32 ∧ r.Took (hashStr x) (rStr r).rest := by
  unfold rStr at h ⊢
  simp only at h ⊢
  split at h
  · cases h
  · next hok =>
      rw [not_or, Nat.not_lt, Bool.not_eq_true] at hok
      rw [if_neg (by simpa [hok.1] using hok.2)]
      obtain ⟨word, hword, hval, htook⟩ := rU32_took hok.1
      have hlength : (((rU32 r).rest.data.drop (rU32 r).rest.pos).take
          (rU32 r).val.toNat).length = (rU32 r).val.toNat := by
        rw [List.length_take, List.length_drop]
        omega
      have hhead : putU32 (UInt32.ofNat (rU32 r).val.toNat) = word := by
        rw [UInt32.ofNat_toNat, hval, putU32_getU32 hword]
      refine ⟨_, hlength.trans_lt (rU32 r).val.toNat_lt, ?_⟩
      simp only [hashStr, hlength, hhead]
      exact htook.trans ⟨hok.1, hok.1, remaining_eq _ rfl rfl⟩

/-! ## From the bytes to the reads -/

/-- The bytes `b` are still to come. -/
structure RBuf.Ahead (r : RBuf) (b : Bytes) : Prop where
  err : r.err = false
  pos_le : r.pos ≤ r.data.length
  remaining : r.remaining = b

theorem ahead_rInit (b : Bytes) : (rInit b).Ahead b := ⟨rfl, Nat.zero_le _, rfl⟩

namespace RBuf.Ahead

/-- Behind the first of the bytes ahead. -/
private theorem move {r r' : RBuf} (h : r.Ahead (b ++ rest)) (herr : r'.err = false)
    (hdata : r'.data = r.data) (hpos : r'.pos = r.pos + b.length) : r'.Ahead rest := by
  have hlength := congrArg List.length h.remaining
  rw [RBuf.remaining, List.length_drop, List.length_append] at hlength
  have hle := h.pos_le
  refine ⟨herr, by rw [hdata, hpos]; omega, ?_⟩
  rw [RBuf.remaining, hdata, hpos, ← List.drop_drop]
  exact (congrArg (List.drop b.length) h.remaining).trans List.drop_left

private theorem pos_add_le (h : r.Ahead (b ++ rest)) : r.pos + b.length ≤ r.data.length := by
  have hlength := congrArg List.length h.remaining
  rw [RBuf.remaining, List.length_drop, List.length_append] at hlength
  have hle := h.pos_le
  omega

theorem rByte {v : UInt8} (h : r.Ahead (v :: rest)) :
    (rByte r).val = v ∧ (rByte r).rest.Ahead rest := by
  have hle := pos_add_le (b := [v]) h
  have hval : r.data.getD r.pos 0 = v := by
    have hhead := congrArg (fun l => l.headD 0) h.remaining
    simpa [RBuf.remaining, List.headD_eq_head?_getD, List.head?_drop,
      List.getD_eq_getElem?_getD] using hhead
  rw [EfiSshServer.rByte, if_neg (by simpa [h.err] using hle)]
  exact ⟨hval, move (b := [v]) h h.err rfl rfl⟩

theorem rU32 {v : UInt32} (h : r.Ahead (putU32 v ++ rest)) :
    (rU32 r).val = v ∧ (rU32 r).rest.Ahead rest := by
  have hle := pos_add_le h
  rw [EfiSshServer.rU32, if_neg (by simpa [h.err] using hle)]
  refine ⟨?_, move h h.err rfl rfl⟩
  change getU32 r.remaining = v
  rw [h.remaining, getU32_putU32_append]

theorem rStr (hx : x.length < 2 ^ 32) (h : r.Ahead (hashStr x ++ rest)) :
    (rStr r).val = x ∧ (rStr r).rest.Ahead rest := by
  have hword : r.Ahead (putU32 (UInt32.ofNat x.length) ++ (x ++ rest)) := by
    rwa [hashStr, List.append_assoc] at h
  obtain ⟨hval, hahead⟩ := hword.rU32
  have hlength : (EfiSshServer.rU32 r).val.toNat = x.length := by
    rw [hval, UInt32.toNat_ofNat', Nat.mod_eq_of_lt hx]
  have hle := pos_add_le hahead
  rw [EfiSshServer.rStr]
  simp only [hlength]
  rw [if_neg (by simpa [hahead.err] using hle)]
  refine ⟨?_, move hahead hahead.err rfl rfl⟩
  change ((EfiSshServer.rU32 r).rest.remaining).take x.length = x
  rw [hahead.remaining, List.take_left]

end RBuf.Ahead

end EfiSshServer
