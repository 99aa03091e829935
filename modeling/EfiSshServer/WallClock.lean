import Mathlib.Tactic.Linarith
import EfiSshServer.Api
import EfiSshServer.Lib.Calendar

/-!
# The wall clock

`RtNow` flattens the date that the firmware reports into seconds, with months of 31 days
and years of twelve of them.  Between two dates it is right when no month that ended in
between is shorter (`rtSeconds_diff_iff`).  `RtTimedOut` leaves a second for the fraction
that `RtNow` drops, so with a right difference it is not early (`rtTimedOut_late`).
-/

namespace EfiSshServer

open Calendar StateProgram

/-! ## The functions -/

/-- The fields of `EFI_TIME` that `RtNow` reads, and the nanoseconds that it drops. -/
structure EfiTime where
  year : UInt16
  month : UInt8
  day : UInt8
  hour : UInt8
  minute : UInt8
  second : UInt8
  nanosecond : UInt32
  deriving DecidableEq

def EfiTime.rtSeconds (t : EfiTime) : UInt64 :=
  (t.year.toUInt64 * 372 + t.month.toUInt64 * 31 + t.day.toUInt64) * 86400 +
    t.hour.toUInt64 * 3600 + t.minute.toUInt64 * 60 + t.second.toUInt64

/-- `RtNow`; without a time services table, or with an error of `GetTime`, there is no time. -/
def rtNowOf : Option EfiTime → UInt64
  | none => 0
  | some t => t.rtSeconds

/-- `RtTimedOut`, with what `GetTime` reports when it is asked. -/
def rtTimedOutAt (getTime : Option EfiTime) (startSec spins usPerSpin limitMs : UInt64) : Bool :=
  let now := rtNowOf getTime
  if (startSec ≠ 0 ∧ spins &&& 63 = 0) ∧
      (now ≠ 0 ∧ now > startSec ∧ (now - startSec) * 1000 > limitMs + 1000) then true
  else spins * usPerSpin > limitMs * 1000 * 4

/-! ## Calendar time -/

namespace EfiTime

/-- Months since January of year 0. -/
def monthIndex (t : EfiTime) : ℕ := 12 * t.year.toNat + (t.month.toNat - 1)

structure Valid (t : EfiTime) : Prop where
  month_pos : 1 ≤ t.month.toNat
  month_le : t.month.toNat ≤ 12
  day_pos : 1 ≤ t.day.toNat
  day_le : t.day.toNat ≤ monthLength t.monthIndex
  hour_lt : t.hour.toNat < 24
  minute_lt : t.minute.toNat < 60
  second_lt : t.second.toNat < 60
  nanosecond_lt : t.nanosecond.toNat < 10 ^ 9

/-- Seconds of the day. -/
def secondOfDay (t : EfiTime) : ℕ := t.hour.toNat * 3600 + t.minute.toNat * 60 + t.second.toNat

/-- Seconds since the beginning of year 0, and a day. -/
def seconds (t : EfiTime) : ℕ :=
  (daysBefore t.monthIndex + t.day.toNat) * 86400 + t.secondOfDay

def nanoseconds (t : EfiTime) : ℕ := t.seconds * 10 ^ 9 + t.nanosecond.toNat

variable {t start now : EfiTime}

theorem Valid.secondOfDay_lt (h : t.Valid) : t.secondOfDay < 86400 := by
  have hhour := h.hour_lt
  have hminute := h.minute_lt
  have hsecond := h.second_lt
  rw [secondOfDay]
  omega

/-- Time does not go back to an earlier month. -/
theorem monthIndex_le (hstart : start.Valid) (hnow : now.Valid)
    (hle : start.nanoseconds ≤ now.nanoseconds) : start.monthIndex ≤ now.monthIndex := by
  by_contra hback
  have hdays := day_lt_of_month_lt hnow.day_le (Nat.not_le.mp hback)
  have hday := hstart.day_pos
  have hsecond := hnow.secondOfDay_lt
  have hnano := hnow.nanosecond_lt
  rw [nanoseconds, nanoseconds, seconds, seconds] at hle
  omega

theorem seconds_le (hstart : start.Valid) (hnow : now.Valid)
    (hle : start.nanoseconds ≤ now.nanoseconds) : start.seconds ≤ now.seconds := by
  have hnano := hstart.nanosecond_lt
  have hnano' := hnow.nanosecond_lt
  rw [nanoseconds, nanoseconds] at hle
  omega

/-- From the last second of a month to the first of the next. -/
theorem nanoseconds_next (hlast : start.day.toNat = monthLength start.monthIndex)
    (hnext : now.monthIndex = start.monthIndex + 1) (hfirst : now.day.toNat = 1)
    (hstart : start.secondOfDay * 10 ^ 9 + start.nanosecond.toNat = 86399 * 10 ^ 9)
    (hnow : now.secondOfDay * 10 ^ 9 + now.nanosecond.toNat = 0) :
    now.nanoseconds = start.nanoseconds + 10 ^ 9 := by
  rw [nanoseconds, nanoseconds, seconds, seconds, hnext, daysBefore_succ, hlast, hfirst]
  linarith

/-- What `RtNow` counts: months of 31 days. -/
theorem rtSeconds_toNat (h : t.Valid) :
    t.rtSeconds.toNat = (31 * (t.monthIndex + 1) + t.day.toNat) * 86400 + t.secondOfDay := by
  have hyear := t.year.toNat_lt
  have hmonth := h.month_le
  have hpos := h.month_pos
  have hday := t.day.toNat_lt
  have hhour := h.hour_lt
  have hminute := h.minute_lt
  have hsecond := h.second_lt
  simp only [rtSeconds, UInt64.toNat_add, UInt64.toNat_mul, UInt16.toNat_toUInt64,
    UInt8.toNat_toUInt64, UInt64.reduceToNat, monthIndex, secondOfDay]
  omega

theorem rtSeconds_lt (h : t.Valid) : t.rtSeconds.toNat * 1000 < 2 ^ 64 := by
  have hyear := t.year.toNat_lt
  have hmonth := h.month_le
  have hday := t.day.toNat_lt
  have hsecond := h.secondOfDay_lt
  rw [rtSeconds_toNat h, monthIndex]
  omega

/-- The difference of `RtNow`, in numbers: too large by the days that months are short. -/
theorem rtSeconds_diff (hstart : start.Valid) (hnow : now.Valid)
    (hle : start.nanoseconds ≤ now.nanoseconds) :
    (now.rtSeconds - start.rtSeconds).toNat + start.rtSeconds.toNat = now.rtSeconds.toNat := by
  obtain ⟨months, hmonths⟩ := Nat.exists_eq_add_of_le (monthIndex_le hstart hnow hle)
  have hdays : daysBefore now.monthIndex ≤ daysBefore start.monthIndex + 31 * months := by
    have hle := daysBefore_le (monthIndex_le hstart hnow hle)
    rwa [hmonths, Nat.add_sub_cancel_left, ← hmonths] at hle
  have hseconds := seconds_le hstart hnow hle
  rw [seconds, seconds] at hseconds
  have hnat : (31 * (start.monthIndex + 1) + start.day.toNat) * 86400 + start.secondOfDay ≤
      (31 * (now.monthIndex + 1) + now.day.toNat) * 86400 + now.secondOfDay := by
    rw [hmonths] at hseconds hdays ⊢
    linarith
  have hle64 : start.rtSeconds ≤ now.rtSeconds := by
    rwa [UInt64.le_iff_toNat_le, rtSeconds_toNat hstart, rtSeconds_toNat hnow]
  rw [UInt64.toNat_sub_of_le _ _ hle64]
  exact Nat.sub_add_cancel (UInt64.le_iff_toNat_le.mp hle64)

/-- The difference is right when every month from that of `start` on, up to that of `now`,
has 31 days. -/
theorem rtSeconds_diff_iff (hstart : start.Valid) (hnow : now.Valid)
    (hle : start.nanoseconds ≤ now.nanoseconds) :
    (now.rtSeconds - start.rtSeconds).toNat = now.seconds - start.seconds ↔
      ∀ m, start.monthIndex ≤ m → m < now.monthIndex → monthLength m = 31 := by
  have hindex := monthIndex_le hstart hnow hle
  have hseconds := seconds_le hstart hnow hle
  have hdiff := rtSeconds_diff hstart hnow hle
  rw [rtSeconds_toNat hstart, rtSeconds_toNat hnow] at hdiff
  rw [← daysBefore_eq_iff hindex]
  rw [seconds, seconds] at hseconds ⊢
  constructor
  · intro heq
    omega
  · intro heq
    omega

end EfiTime

/-! ## The timeout -/

section Timeout

variable {start now : EfiTime} {spins usPerSpin limitMs : UInt64}

/-- The second that `limitMs + 1000` allows for covers the fractions. -/
theorem late_of_seconds {startSec nowSec startNano nowNano limit : ℕ}
    (hlate : limit + 1000 < (nowSec - startSec) * 1000) (hnano : startNano < 10 ^ 9) :
    limit * 10 ^ 6 < nowSec * 10 ^ 9 + nowNano - (startSec * 10 ^ 9 + startNano) := by
  omega

theorem allowance_lt {limit : ℕ} (h : limit * 4000 < 2 ^ 64) : limit + 1000 < 2 ^ 64 := by
  omega

/-- With a right difference of seconds the timeout is not early. -/
theorem rtTimedOut_late (hstart : start.Valid) (hnow : now.Valid)
    (hle : start.nanoseconds ≤ now.nanoseconds)
    (hright : (now.rtSeconds - start.rtSeconds).toNat = now.seconds - start.seconds)
    (hspins : spins.toNat * usPerSpin.toNat < 2 ^ 64) (hlimit : limitMs.toNat * 4000 < 2 ^ 64)
    (hout : rtTimedOutAt (some now) start.rtSeconds spins usPerSpin limitMs = true) :
    limitMs.toNat * 10 ^ 6 < now.nanoseconds - start.nanoseconds ∨
      4000 * limitMs.toNat < spins.toNat * usPerSpin.toNat := by
  rw [rtTimedOutAt] at hout
  simp only [rtNowOf] at hout
  rcases ite_eq_iff.mp hout with ⟨⟨-, -, -, hlate⟩, -⟩ | ⟨-, hout⟩
  · left
    have hsum := EfiTime.rtSeconds_diff hstart hnow hle
    have hdiff : (now.rtSeconds - start.rtSeconds).toNat ≤ now.rtSeconds.toNat :=
      hsum ▸ Nat.le_add_right _ _
    have hsmall : (now.rtSeconds - start.rtSeconds).toNat * 1000 < 2 ^ 64 :=
      (Nat.mul_le_mul_right 1000 hdiff).trans_lt (EfiTime.rtSeconds_lt hnow)
    have hallowed := allowance_lt hlimit
    rw [gt_iff_lt, UInt64.lt_iff_toNat_lt, UInt64.toNat_add, UInt64.toNat_mul] at hlate
    simp only [UInt64.reduceToNat] at hlate
    rw [Nat.mod_eq_of_lt hsmall, Nat.mod_eq_of_lt hallowed, hright] at hlate
    exact late_of_seconds hlate hstart.nanosecond_lt
  · right
    have hspent := of_decide_eq_true hout
    rw [gt_iff_lt, UInt64.lt_iff_toNat_lt, UInt64.toNat_mul, UInt64.toNat_mul,
      UInt64.toNat_mul, Nat.mod_eq_of_lt hspins] at hspent
    simp only [UInt64.reduceToNat] at hspent
    have hthousand : limitMs.toNat * 1000 < 2 ^ 64 :=
      (Nat.mul_le_mul_left _ (by decide)).trans_lt hlimit
    have hfactor : limitMs.toNat * 1000 * 4 = limitMs.toNat * 4000 := Nat.mul_assoc _ 1000 4
    rw [Nat.mod_eq_of_lt hthousand, hfactor, Nat.mod_eq_of_lt hlimit, Nat.mul_comm] at hspent
    exact hspent

/-- What `RtNow` and `RtTimedOut` promise for a wait from `start` to `now`. -/
def NoPrematureTimeout (start now : EfiTime) : Prop :=
  (rtNowOf (some now) - rtNowOf (some start)).toNat = now.seconds - start.seconds ∧
    ∀ spins usPerSpin limitMs : UInt64, spins.toNat * usPerSpin.toNat < 2 ^ 64 →
      limitMs.toNat * 4000 < 2 ^ 64 →
      rtTimedOutAt (some now) (rtNowOf (some start)) spins usPerSpin limitMs = true →
      limitMs.toNat * 10 ^ 6 < now.nanoseconds - start.nanoseconds ∨
        4000 * limitMs.toNat < spins.toNat * usPerSpin.toNat

/-- `RtNow` keeps its promise when no month that ended during the wait was short. -/
theorem noPrematureTimeout_iff (start now : EfiTime) (hstart : start.Valid) (hnow : now.Valid)
    (hle : start.nanoseconds ≤ now.nanoseconds) :
    NoPrematureTimeout start now ↔
      ∀ m, start.monthIndex ≤ m → m < now.monthIndex → monthLength m = 31 := by
  have hdiff := EfiTime.rtSeconds_diff_iff hstart hnow hle
  refine ⟨fun h => hdiff.mp h.1, fun hmonths => ?_⟩
  have hright := hdiff.mpr hmonths
  exact ⟨hright, fun _ _ _ hspins hlimit hout =>
    rtTimedOut_late hstart hnow hle hright hspins hlimit hout⟩

/-- A second is not over before it has begun. -/
theorem le_of_next (hnext : now.nanoseconds = start.nanoseconds + 10 ^ 9) :
    start.nanoseconds ≤ now.nanoseconds :=
  Nat.le.intro hnext.symm

/-- Over the end of a January. -/
theorem noPrematureTimeout_january :
    NoPrematureTimeout ⟨2023, 1, 31, 23, 59, 59, 0⟩ ⟨2023, 2, 1, 0, 0, 0, 0⟩ := by
  have hlength : monthLength 24276 = 31 := by decide +kernel
  refine (noPrematureTimeout_iff _ _ ?_ ?_ ?_).mpr ?_
  · constructor <;> decide +kernel
  · constructor <;> decide +kernel
  · exact le_of_next (EfiTime.nanoseconds_next hlength.symm rfl rfl rfl rfl)
  · intro m hlow hhigh
    have hm : m = 24276 := le_antisymm (Nat.le_of_lt_succ hhigh) hlow
    rw [hm, hlength]

/-- A second that `RtTimedOut` takes for more than 31. -/
theorem not_noPrematureTimeout (hnext : now.nanoseconds = start.nanoseconds + 10 ^ 9)
    (hout : rtTimedOutAt (some now) (rtNowOf (some start)) 64 100 30000 = true) :
    ¬ NoPrematureTimeout start now := by
  rintro ⟨-, htimeout⟩
  rcases htimeout 64 100 30000 (by decide) (by decide) hout with hlate | hspent
  · rw [hnext, Nat.add_sub_cancel_left] at hlate
    exact absurd hlate (by decide)
  · exact absurd hspent (by decide)

/-- Over the end of a February: one second is four days, so a wait of 30 seconds is over. -/
theorem rtTimedOut_february :
    ¬ NoPrematureTimeout ⟨2023, 2, 28, 23, 59, 59, 0⟩ ⟨2023, 3, 1, 0, 0, 0, 0⟩ := by
  have hlength : monthLength 24277 = 28 := by decide +kernel
  exact not_noPrematureTimeout (EfiTime.nanoseconds_next hlength.symm rfl rfl rfl rfl)
    (by decide +kernel)

end Timeout

end EfiSshServer
