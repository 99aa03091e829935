import EfiSshServer.Machine

/-!
# The seed

`UefiRandSeed` mixes a buffer from RDRAND, or else from the firmware's random number
protocol, and then from the jitter of the timer.  `Hardware` is what these sources answer.
A `Seed` is the buffer and a log of what was mixed into it, so that `Delivered` can tell
where a byte comes from; `Coherent` ties the two together.

RDRAND delivers eight bytes at a time and can stop in the middle (`rdrandFrom_spec`).
-/

namespace EfiSshServer

/-! ## The sources -/

/-- The fields of `EFI_TIME` that `UefiRandSeed` reads. -/
structure TimeOfDay where
  second : UInt8
  minute : UInt8
  nanosecond : UInt32

structure Hardware where
  haveRdrand : Bool
  /-- The instruction in an attempt for a word. -/
  rdrand : (word attempt : ℕ) → Option UInt64
  /-- `LocateProtocol` finds the random number protocol. -/
  rngFound : Bool
  getRng : EfiStatus
  /-- What `GetRNG` leaves in the buffer. -/
  rngBytes : ℕ → UInt8
  /-- The `n`-th `rdtsc`. -/
  ticks : ℕ → UInt64
  /-- `GetTime`, if there is one and it succeeds. -/
  getTime : Option TimeOfDay

inductive EntropySource where
  | rdrand
  | firmware
  | jitter
  | clock
  deriving DecidableEq

/-- A byte mixed into a position of the buffer. -/
structure Contribution where
  source : EntropySource
  pos : ℕ
  byte : UInt8
  deriving DecidableEq

structure Seed where
  out : ℕ → UInt8
  log : List Contribution

namespace Seed

/-- `out[pos] ^= byte`. -/
def mix (s : Seed) (c : Contribution) : Seed where
  out := Function.update s.out c.pos (s.out c.pos ^^^ c.byte)
  log := c :: s.log

/-- `n` bytes from `start` on. -/
def mixBytes (s : Seed) (source : EntropySource) (start : ℕ) (byte : ℕ → UInt8) : ℕ → Seed
  | 0 => s
  | n + 1 => (s.mixBytes source start byte n).mix ⟨source, start + n, byte n⟩

/-- One byte for each of the first `n` positions. -/
def contributions (source : EntropySource) (bytes : ℕ → UInt8) : ℕ → List Contribution
  | 0 => []
  | n + 1 => ⟨source, n, bytes n⟩ :: contributions source bytes n

/-- The buffer is overwritten. -/
def fill (s : Seed) (bytes : ℕ → UInt8) (sz : ℕ) : Seed :=
  { s with out := fun i => if i < sz then bytes i else s.out i }

end Seed

/-! ## `UefiRandSeed` -/

section Source

variable (hw : Hardware)

/-- `Rdrand64`: sixteen attempts. -/
def rdrand64 (word : ℕ) : Option UInt64 := (List.range 16).findSome? (hw.rdrand word)

/-- The loop over RDRAND from a word on, with `haveSource`. -/
def rdrandFrom (sz : ℕ) : (rounds word : ℕ) → Seed × Bool → Seed × Bool
  | 0, _, s => s
  | rounds + 1, word, (s, haveSource) =>
      match rdrand64 hw word with
      | none => (s, haveSource)
      | some v =>
          rdrandFrom sz rounds (word + 1)
            (s.mixBytes .rdrand (8 * word) (fun j => (v >>> UInt64.ofNat (8 * j)).toUInt8)
              (min 8 (sz - 8 * word)), true)

/-- The rounds of the loop `for (i = 0; i < sz; i += 8)`. -/
def rdrandWords (sz : ℕ) : ℕ := (sz + 7) / 8

/-- The firmware protocol. -/
def firmwareSeed (sz : ℕ) (s : Seed) : Seed × Bool :=
  if hw.rngFound then
    let filled := s.fill hw.rngBytes sz
    if efiError hw.getRng then (filled, false)
    else
      ({ filled with log := Seed.contributions .firmware hw.rngBytes sz ++ s.log }, true)
  else (s, false)

def jitterByte (i : ℕ) : UInt8 :=
  let t := hw.ticks (2 * i)
  (t ^^^ (t >>> 8) ^^^ (t >>> 16) ^^^ ((hw.ticks (2 * i + 1) * 0x9E3779B97F4A7C15) >>> 56)).toUInt8

/-- A round of the last loop. -/
def jitterRound (i : ℕ) (s : Seed) : Seed :=
  let s := s.mix ⟨.jitter, i, jitterByte hw i⟩
  match i, hw.getTime with
  | 0, some now =>
      s.mix ⟨.clock, 0, now.second ^^^ now.minute ^^^ (now.nanosecond >>> 3).toUInt8⟩
  | _, _ => s

def mixJitter : ℕ → Seed → Seed
  | 0, s => s
  | n + 1, s => jitterRound hw n (mixJitter n s)

/-- `none` when it does not return, which is when `memset` halts. -/
def uefiRandSeed (sz : UInt32) : Option (Int × Seed) :=
  if sz.toNat > rtInsaneLen then none
  else
    let start : Seed := ⟨fun _ => 0, []⟩
    let rdrand :=
      if hw.haveRdrand then rdrandFrom hw sz.toNat (rdrandWords sz.toNat) 0 (start, false)
      else (start, false)
    let all := if rdrand.2 then rdrand else firmwareSeed hw sz.toNat rdrand.1
    some (if all.2 then 0 else -1, mixJitter hw sz.toNat all.1)

end Source

/-! ## What was mixed -/

/-- All that was mixed into a position. -/
def mixedAt : List Contribution → ℕ → UInt8
  | [], _ => 0
  | c :: log, i => if c.pos = i then mixedAt log i ^^^ c.byte else mixedAt log i

/-- The buffer holds what the log says. -/
def Coherent (s : Seed) : Prop := ∀ i, s.out i = mixedAt s.log i

def Delivered (s : Seed) (source : EntropySource) (i : ℕ) : Prop :=
  ∃ c ∈ s.log, c.source = source ∧ c.pos = i

instance (s : Seed) (source : EntropySource) (i : ℕ) : Decidable (Delivered s source i) :=
  inferInstanceAs (Decidable (∃ c ∈ s.log, _))

section Mix

variable {s : Seed} {source source' : EntropySource} {i : ℕ}

theorem out_mix {c : Contribution} :
    (s.mix c).out i = if c.pos = i then s.out i ^^^ c.byte else s.out i := by
  by_cases hi : c.pos = i
  · rw [if_pos hi, ← hi]
    exact Function.update_self _ _ _
  · rw [if_neg hi]
    exact Function.update_of_ne (Ne.symm hi) _ _

theorem Coherent.mix (h : Coherent s) (c : Contribution) : Coherent (s.mix c) := by
  intro i
  rw [out_mix, h i]
  rfl

theorem delivered_mix {c : Contribution} :
    Delivered (s.mix c) source i ↔ (c.source = source ∧ c.pos = i) ∨ Delivered s source i := by
  simp [Delivered, Seed.mix]

theorem Coherent.mixBytes (h : Coherent s) (start : ℕ) (byte : ℕ → UInt8) (n : ℕ) :
    Coherent (s.mixBytes source start byte n) := by
  induction n with
  | zero => exact h
  | succ n ih => exact ih.mix _

theorem delivered_mixBytes {start : ℕ} {byte : ℕ → UInt8} {n : ℕ} :
    Delivered (s.mixBytes source' start byte n) source i ↔
      (source' = source ∧ start ≤ i ∧ i < start + n) ∨ Delivered s source i := by
  induction n with
  | zero =>
    refine ⟨.inr, fun h => h.resolve_left fun hmixed => ?_⟩
    omega
  | succ n ih =>
    rw [Seed.mixBytes, delivered_mix, ih, ← or_assoc]
    refine or_congr_left ⟨?_, ?_⟩
    · rintro (⟨hsource, hpos⟩ | ⟨hsource, hlow, hhigh⟩)
      · have hpos : start + n = i := hpos
        exact ⟨hsource, by omega, by omega⟩
      · exact ⟨hsource, hlow, by omega⟩
    · rintro ⟨hsource, hlow, hhigh⟩
      by_cases hlast : start + n = i
      · exact .inl ⟨hsource, hlast⟩
      · exact .inr ⟨hsource, hlow, by omega⟩

end Mix

/-! ## The loops -/

section Loops

variable (hw : Hardware) {s : Seed} (sz : ℕ)

/-- RDRAND delivers whole words up to the first failure. -/
theorem rdrandFrom_spec (rounds word : ℕ) (haveSource : Bool) (h : Coherent s) :
    ∃ stop, word ≤ stop ∧ stop ≤ word + rounds ∧
      (∀ w, word ≤ w → w < stop → (rdrand64 hw w).isSome) ∧
      (stop < word + rounds → rdrand64 hw stop = none) ∧
      let t := rdrandFrom hw sz rounds word (s, haveSource)
      t.2 = (haveSource || decide (word < stop)) ∧ Coherent t.1 ∧
      ∀ source i, Delivered t.1 source i ↔
        (source = .rdrand ∧ 8 * word ≤ i ∧ i < 8 * stop ∧ i < sz) ∨ Delivered s source i := by
  induction rounds generalizing word s haveSource with
  | zero =>
    refine ⟨word, le_refl _, le_refl _, fun w hlow hhigh => absurd hlow (Nat.not_le.mpr hhigh),
      fun hlt => absurd hlt (lt_irrefl _), by simp [rdrandFrom], h, fun source i => ?_⟩
    exact ⟨.inr, fun hor => hor.resolve_left fun hmixed => by omega⟩
  | succ rounds ih =>
    cases hword : rdrand64 hw word with
    -- a failure ends the loop, and leaves `haveSource` as the words before it set it
    | none =>
      refine ⟨word, le_refl _, Nat.le_add_right _ _,
        fun w hlow hhigh => absurd hlow (Nat.not_le.mpr hhigh), fun _ => hword, ?_⟩
      simp only [rdrandFrom, hword]
      refine ⟨by simp, h, fun source i => ?_⟩
      exact ⟨.inr, fun hor => hor.resolve_left fun hmixed => by omega⟩
    | some v =>
      have hmixed : Coherent (s.mixBytes .rdrand (8 * word)
          (fun j => (v >>> UInt64.ofNat (8 * j)).toUInt8) (min 8 (sz - 8 * word))) :=
        h.mixBytes _ _ _
      obtain ⟨stop, hlow, hhigh, hall, hfail, hsource, hcoherent, hdelivered⟩ :=
        ih (word + 1) true hmixed
      refine ⟨stop, by omega, by omega, fun w hw hstop => ?_, fun hlt => hfail (by omega), ?_⟩
      · rcases Nat.eq_or_lt_of_le hw with rfl | hw
        · rw [hword]
          rfl
        · exact hall w hw hstop
      · simp only [rdrandFrom, hword]
        refine ⟨?_, hcoherent, fun source i => ?_⟩
        · rw [hsource]
          simp
          omega
        · rw [hdelivered, delivered_mixBytes, ← or_assoc]
          refine or_congr_left ⟨?_, ?_⟩
          · rintro (⟨rfl, hmore⟩ | ⟨rfl, hnow⟩)
            · exact ⟨rfl, by omega⟩
            · exact ⟨rfl, by omega⟩
          · rintro ⟨rfl, hall⟩
            by_cases hnext : 8 * (word + 1) ≤ i
            · exact .inl ⟨rfl, by omega⟩
            · exact .inr ⟨rfl, by omega⟩

/-- The timer adds to what is there. -/
theorem mixJitter_spec (h : Coherent s) (n : ℕ) :
    Coherent (mixJitter hw n s) ∧ ∀ source i, source = .rdrand ∨ source = .firmware →
      (Delivered (mixJitter hw n s) source i ↔ Delivered s source i) := by
  have hother : ∀ {t : Seed} {c : Contribution}, c.source = .jitter ∨ c.source = .clock →
      ∀ source i, source = .rdrand ∨ source = .firmware →
        (Delivered (t.mix c) source i ↔ Delivered t source i) := by
    intro t c hc source i hsource
    rw [delivered_mix]
    refine ⟨fun hor => hor.resolve_left fun hmixed => ?_, .inr⟩
    rw [hmixed.1] at hc
    rcases hc with rfl | rfl <;> rcases hsource with h | h <;> cases h
  induction n with
  | zero => exact ⟨h, fun _ _ _ => Iff.rfl⟩
  | succ n ih =>
    obtain ⟨hcoherent, hdelivered⟩ := ih
    rw [mixJitter, jitterRound.eq_def]
    simp only
    split
    · refine ⟨(hcoherent.mix _).mix _, fun source i hsource => ?_⟩
      rw [hother (.inr rfl) source i hsource, hother (.inl rfl) source i hsource]
      exact hdelivered source i hsource
    · refine ⟨hcoherent.mix _, fun source i hsource => ?_⟩
      rw [hother (.inl rfl) source i hsource]
      exact hdelivered source i hsource

theorem mixedAt_contributions {source : EntropySource} (bytes : ℕ → UInt8) (n i : ℕ) :
    mixedAt (Seed.contributions source bytes n) i = if i < n then bytes i else 0 := by
  induction n with
  | zero => rfl
  | succ n ih =>
    rw [Seed.contributions, mixedAt, ih]
    by_cases hi : n = i
    · subst hi
      rw [if_pos rfl, if_neg (lt_irrefl n), if_pos (Nat.lt_succ_self n), UInt8.zero_xor]
    · rw [if_neg hi]
      exact if_congr (by omega) rfl rfl

theorem mem_contributions {source : EntropySource} (bytes : ℕ → UInt8) {n i : ℕ} (hi : i < n) :
    ⟨source, i, bytes i⟩ ∈ Seed.contributions source bytes n := by
  induction n with
  | zero => exact absurd hi (Nat.not_lt_zero i)
  | succ n ih =>
    rcases Nat.lt_succ_iff_lt_or_eq.mp hi with hi | rfl
    · exact List.mem_cons_of_mem _ (ih hi)
    · exact List.mem_cons_self

/-- The firmware delivers all of the buffer or nothing. -/
theorem firmwareSeed_spec (hlog : s.log = []) (h : Coherent s) :
    ((firmwareSeed hw sz s).2 = true → Coherent (firmwareSeed hw sz s).1 ∧
        ∀ i < sz, Delivered (firmwareSeed hw sz s).1 .firmware i) ∧
      ((firmwareSeed hw sz s).2 = false → (firmwareSeed hw sz s).1.log = []) := by
  rw [firmwareSeed]
  split
  · simp only
    split
    · exact ⟨fun htrue => (Bool.false_ne_true htrue).elim, fun _ => hlog⟩
    · refine ⟨fun _ => ⟨fun i => ?_, fun i hi => ?_⟩,
        fun hfalse => (Bool.false_ne_true hfalse.symm).elim⟩
      · have hzero : s.out i = 0 := by
          rw [h i, hlog]
          rfl
        rw [hlog, List.append_nil, mixedAt_contributions]
        exact if_congr Iff.rfl rfl hzero
      · refine ⟨_, List.mem_append_left _ (mem_contributions hw.rngBytes hi), rfl, rfl⟩
  · exact ⟨fun htrue => (Bool.false_ne_true htrue).elim, fun _ => hlog⟩

end Loops

/-! ## What success says -/

/-- A seed that is reported as good has a byte of RDRAND or of the firmware in each position;
when neither covers the buffer, it is reported as bad. -/
def SeedHonest (sz : ℕ) : Option (Int × Seed) → Prop
  | none => True
  | some (ret, s) =>
      (ret = 0 → ∀ i < sz, s.out i = mixedAt s.log i ∧
        (Delivered s .rdrand i ∨ Delivered s .firmware i)) ∧
      ((¬ ∀ i < sz, Delivered s .rdrand i) → (¬ ∀ i < sz, Delivered s .firmware i) → ret = -1)

/-- RDRAND delivers the first word and fails for a later one. -/
def RdrandStops (hw : Hardware) (sz : ℕ) : Prop :=
  hw.haveRdrand = true ∧ (rdrand64 hw 0).isSome ∧
    ∃ w < rdrandWords sz, rdrand64 hw w = none

section Result

variable {hw : Hardware} {sz : ℕ}

/-- A seed with a source for each position stays one under the jitter. -/
theorem honest_of_delivered {s : Seed} {source : EntropySource} (h : Coherent s)
    (hsource : source = .rdrand ∨ source = .firmware) (hall : ∀ i < sz, Delivered s source i) :
    SeedHonest sz (some (0, mixJitter hw sz s)) := by
  obtain ⟨hcoherent, hdelivered⟩ := mixJitter_spec hw h sz
  have hkept : ∀ i < sz, Delivered (mixJitter hw sz s) source i := fun i hi =>
    (hdelivered source i hsource).mpr (hall i hi)
  rcases hsource with rfl | rfl
  · exact ⟨fun _ i hi => ⟨hcoherent i, .inl (hkept i hi)⟩, fun hnot => absurd hkept hnot⟩
  · exact ⟨fun _ i hi => ⟨hcoherent i, .inr (hkept i hi)⟩, fun _ hnot => absurd hkept hnot⟩

theorem honest_of_failure (s : Seed) : SeedHonest sz (some (-1, s)) :=
  ⟨fun h => absurd h (by decide), fun _ _ => rfl⟩

/-- The firmware is asked when RDRAND delivered nothing. -/
theorem honest_of_firmware {s : Seed} (hlog : s.log = []) (h : Coherent s) :
    SeedHonest sz (some (if (firmwareSeed hw sz s).2 = true then 0 else -1,
      mixJitter hw sz (firmwareSeed hw sz s).1)) := by
  obtain ⟨hgood, -⟩ := firmwareSeed_spec hw sz hlog h
  cases hret : (firmwareSeed hw sz s).2 with
  | false => exact honest_of_failure _
  | true =>
    obtain ⟨hcoherent, hall⟩ := hgood hret
    exact honest_of_delivered hcoherent (.inr rfl) hall

/-- After a first word of RDRAND the seed is honest when there was no failure. -/
theorem honest_of_rdrand {s : Seed} {stop : ℕ} (h : Coherent s)
    (hdelivered : ∀ source i, Delivered s source i ↔
      source = .rdrand ∧ i < 8 * stop ∧ i < sz) :
    SeedHonest sz (some (0, mixJitter hw sz s)) ↔ rdrandWords sz ≤ stop := by
  obtain ⟨hcoherent, hkept⟩ := mixJitter_spec hw h sz
  constructor
  · rintro ⟨hgood, -⟩
    by_contra hshort
    rw [Nat.not_le, rdrandWords] at hshort
    have hin : 8 * stop < sz := by omega
    rcases (hgood rfl (8 * stop) hin).2 with hd | hd
    · rw [hkept _ _ (.inl rfl), hdelivered] at hd
      omega
    · rw [hkept _ _ (.inr rfl), hdelivered] at hd
      cases hd.1
  · intro hall
    refine honest_of_delivered h (.inl rfl) fun i hi => (hdelivered _ _).mpr ⟨rfl, ?_, hi⟩
    rw [rdrandWords] at hall
    omega

end Result

/-- Of a request that `memset` accepts, the seed is honest unless RDRAND fails after it has
delivered a word. -/
theorem uefiRandSeed_honest_iff (hw : Hardware) (sz : UInt32) :
    SeedHonest sz.toNat (uefiRandSeed hw sz) ↔
      (sz.toNat ≤ rtInsaneLen → ¬ RdrandStops hw sz.toNat) := by
  rw [uefiRandSeed]
  split
  · next hlong => exact ⟨fun _ hfits => absurd hfits (Nat.not_le.mpr hlong), fun _ => trivial⟩
  next hfits =>
  rw [Nat.not_lt] at hfits
  simp only [hfits, true_imp_iff]
  generalize sz.toNat = n
  have hstart : Coherent ⟨fun _ => 0, []⟩ := fun _ => rfl
  cases hhave : hw.haveRdrand with
  | false =>
    refine ⟨fun _ hstops => ?_, fun _ => ?_⟩
    · rw [RdrandStops, hhave] at hstops
      cases hstops.1
    · exact honest_of_firmware rfl hstart
  | true =>
    obtain ⟨stop, -, hstop, hall, hfail, hsource, hcoherent, hdelivered⟩ :=
      rdrandFrom_spec hw n (rdrandWords n) 0 false hstart
    rw [Nat.zero_add] at hstop hfail
    have hnone : ∀ source i, ¬ Delivered ⟨fun _ => 0, []⟩ source i := by
      rintro source i ⟨c, hc, -⟩
      cases hc
    have hwords : ∀ source i,
        Delivered (rdrandFrom hw n (rdrandWords n) 0 (⟨fun _ => 0, []⟩, false)).1 source i ↔
          source = .rdrand ∧ i < 8 * stop ∧ i < n := by
      intro source i
      rw [hdelivered, or_iff_left (hnone source i)]
      simp
    simp only [if_true]
    generalize rdrandFrom hw n (rdrandWords n) 0 (⟨fun _ => 0, []⟩, false) = t at *
    obtain ⟨s, haveSource⟩ := t
    rcases Nat.eq_zero_or_pos stop with rfl | hpos
    · -- nothing was delivered
      have hlog : s.log = [] := by
        refine List.eq_nil_iff_forall_not_mem.mpr fun c hc => ?_
        have hc := (hwords c.source c.pos).mp ⟨c, hc, rfl, rfl⟩
        omega
      have hsource : haveSource = false := hsource
      refine ⟨fun _ hstops => ?_, fun _ => ?_⟩
      · obtain ⟨-, hfirst, w, hw, -⟩ := hstops
        rw [hfail (by omega)] at hfirst
        cases hfirst
      · rw [hsource]
        exact honest_of_firmware hlog hcoherent
    · -- the words up to `stop` are in, and the firmware is not asked
      have hsource : haveSource = true := hsource.trans (by simpa using hpos)
      rw [hsource]
      refine (honest_of_rdrand hcoherent hwords).trans ⟨?_, ?_⟩
      · rintro hle ⟨-, -, w, hw, hwfail⟩
        have hsome := hall w (Nat.zero_le w) (by omega)
        rw [hwfail] at hsome
        cases hsome
      · intro hstops
        by_contra hshort
        exact hstops ⟨hhave, hall 0 (le_refl 0) hpos, stop, by omega, hfail (by omega)⟩

/-- A processor whose RDRAND delivers one word. -/
def oneWordHardware : Hardware where
  haveRdrand := true
  rdrand word _ := if word = 0 then some 0x0123456789ABCDEF else none
  rngFound := false
  getRng := efiNotFound
  rngBytes _ := 0
  ticks _ := 0
  getTime := none

/-- Success, with eight bytes of sixteen seeded. -/
theorem uefiRandSeed_partial : ¬ SeedHonest 16 (uefiRandSeed oneWordHardware 16) := by
  rintro ⟨hgood, -⟩
  have hbyte := (hgood (by decide +kernel) 8 (by decide)).2
  revert hbyte
  decide +kernel

end EfiSshServer
