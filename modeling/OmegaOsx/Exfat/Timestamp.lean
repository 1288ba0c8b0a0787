import Mathlib.Algebra.Order.Group.Nat

/-!
# Timestamps

A `DosTimestamp` packs a date and a time of day into sixteen bits each and has a time zone in quarters
of an hour. Dates are those of the `time` crate, durations are in nanoseconds.
-/

namespace OmegaOsx.Exfat

/-- The year, month and day of days counted from 1970, if it is not too late for one, and back. -/
structure Calendar where
  date : Nat → Option (Nat × Nat × Nat)
  fromCalendarDate : Nat → Nat → Nat → Option Nat
  correct : ∀ {n y m d}, date n = some (y, m, d) →
    fromCalendarDate y m d = some n ∧ 0 < m ∧ m ≤ 12 ∧ d < 32

structure DosTimestamp where
  (time date increment10ms utcOffset : Nat)

def getValueFromRange (value start stop : Nat) : Nat := value >>> start &&& (1 <<< (stop - start) - 1)

namespace DosTimestamp

variable (C : Calendar)

def fromDuration (duration : Nat) : Except String DosTimestamp :=
  let time := duration / 10 ^ 9 % 86400
  match C.date (duration / 10 ^ 9 / 86400) with
  | none => .error "failed to parse date time."
  | some (year, month, day) => .ok {
      time := (time / 3600) <<< 11 ||| (time / 60 % 60) <<< 5 ||| (time % 60) >>> 1
      date := (year + 2 ^ 16 - 1980) <<< 9 % 2 ^ 16 ||| month <<< 5 ||| day
      increment10ms := time % 60 % 2 * 100 + duration % 10 ^ 9 / 10000000
      utcOffset := 0 }

def timeZoneSec (x : Nat) : Nat := x * 15 * 60

def adjustTimeZone (sec timeZone : Nat) : Nat :=
  if timeZone ≤ 0x3f then sec + timeZoneSec timeZone else sec + timeZoneSec (0x80 - timeZone)

def asDuration (t : DosTimestamp) : Except String Nat :=
  let month := getValueFromRange t.date 5 9
  let hour := getValueFromRange t.time 11 16
  let minute := getValueFromRange t.time 5 11
  let second := getValueFromRange t.time 0 5 * 2
  if ¬ (0 < month ∧ month ≤ 12) then .error "invalid month"
  else match C.fromCalendarDate (1980 + getValueFromRange t.date 9 16) month
      (getValueFromRange t.date 0 5) with
    | none => .error "invalid day"
    | some day =>
      if ¬ (hour < 24 ∧ minute < 60 ∧ second < 60) then .error "invalid time"
      else
        let sec := day * 86400 + hour * 3600 + minute * 60 + second
        let (sec, nanoSec) := if t.increment10ms ≠ 0 then
            (sec + t.increment10ms / 100, t.increment10ms % 100 * 10 * 1000000)
          else (sec, 0)
        let sec := if t.utcOffset &&& 0x80 ≠ 0 then adjustTimeZone sec (t.utcOffset &&& 0x7f) else sec
        .ok (sec * 10 ^ 9 + nanoSec)

/-- The local time that the packed fields stand for: seven, four and five bits of the date, five, six and
five bits of the time with its seconds in twos, and the increment. -/
def Stores (t : DosTimestamp) (time : Nat) : Prop :=
  ∃ year month day hour minute doubleSecond days,
    t.date = (year * 16 + month) * 32 + day ∧ t.time = (hour * 64 + minute) * 32 + doubleSecond ∧
    (year < 128 ∧ 0 < month ∧ month ≤ 12 ∧ day < 32) ∧ (hour < 24 ∧ minute < 60 ∧ doubleSecond < 30) ∧
    C.fromCalendarDate (1980 + year) month day = some days ∧
    time = (days * 86400 + hour * 3600 + minute * 60 + doubleSecond * 2) * 10 ^ 9 +
      t.increment10ms * 10000000

/-- The stored offset, in quarters of an hour. -/
def offset (t : DosTimestamp) : Int := (BitVec.ofNat 7 t.utcOffset).toInt

theorem adjustTimeZone_eq (t : DosTimestamp) (sec : Nat) :
    adjustTimeZone sec (t.utcOffset &&& 0x7f) = sec + t.offset.natAbs * 900 := by
  rw [show t.utcOffset &&& 0x7f = t.utcOffset % 2 ^ 7 from Nat.and_two_pow_sub_one_eq_mod _ 7,
    adjustTimeZone, offset, BitVec.toInt_eq_toNat_cond, BitVec.toNat_ofNat]
  unfold timeZoneSec
  split <;> split <;> omega

variable {C}

/-- What is read back, whatever the sign of the offset. -/
theorem Stores.asDuration_eq {t : DosTimestamp} {time : Nat} (stores : Stores C t time) :
    asDuration C t =
      .ok (time + if t.utcOffset &&& 0x80 ≠ 0 then t.offset.natAbs * 900 * 10 ^ 9 else 0) := by
  obtain ⟨year, month, day, hour, minute, doubleSecond, days, date, clock, inDate, inTime, found, rfl⟩ :=
    stores
  rw [asDuration, date, clock]
  simp only [getValueFromRange, Nat.one_shiftLeft, Nat.and_two_pow_sub_one_eq_mod,
    Nat.shiftRight_eq_div_pow]
  have year_eq : ((year * 16 + month) * 32 + day) / 2 ^ 9 % 2 ^ (16 - 9) = year := by omega
  have month_eq : ((year * 16 + month) * 32 + day) / 2 ^ 5 % 2 ^ (9 - 5) = month := by omega
  have day_eq : ((year * 16 + month) * 32 + day) / 2 ^ 0 % 2 ^ (5 - 0) = day := by omega
  rw [year_eq, month_eq, day_eq, found, if_neg (by omega)]
  dsimp only
  rw [if_neg (by omega), adjustTimeZone_eq]
  refine congrArg Except.ok ?_
  split <;> split <;> dsimp only <;> omega

/-- Fields that fit do not overlap. -/
theorem or_eq {a b c n : Nat} (fits : b <<< 5 + c < 2 ^ n) (fits' : c < 2 ^ 5) :
    a <<< n ||| b <<< 5 ||| c = a <<< n + (b <<< 5 + c) := by
  rw [Nat.shiftLeft_add_eq_or_of_lt fits, Nat.shiftLeft_add_eq_or_of_lt fits', Nat.or_assoc]

theorem fromDuration_stores {duration year month day : Nat}
    (date : C.date (duration / 10 ^ 9 / 86400) = some (year, month, day)) (first : 1980 ≤ year)
    (last : year ≤ 2107) : ∃ t, fromDuration C duration = .ok t ∧ t.utcOffset = 0 ∧
      Stores C t (duration / 10000000 * 10000000) := by
  obtain ⟨found, positive, le, lt⟩ := C.correct date
  obtain ⟨y, rfl⟩ := Nat.exists_eq_add_of_le first
  refine ⟨_, by rw [fromDuration, date], rfl, y, month, day, duration / 10 ^ 9 % 86400 / 3600,
    duration / 10 ^ 9 % 86400 / 60 % 60, (duration / 10 ^ 9 % 86400 % 60) >>> 1, _, ?_, ?_,
    ⟨by omega, positive, le, lt⟩, ?_, found, ?_⟩
  · have stored : (1980 + y + 2 ^ 16 - 1980) <<< 9 % 2 ^ 16 = y <<< 9 := by omega
    dsimp only
    rw [stored, or_eq (by omega) (by omega)]
    omega
  · dsimp only
    rw [or_eq (by omega) (by omega)]
    omega
  · omega
  · dsimp only
    omega

variable (C) in
/-- The round trip keeps all but the last ten milliseconds, and a stored offset is right if it is not
positive. -/
theorem asDuration_correct_iff :
    (∀ duration year month day, C.date (duration / 10 ^ 9 / 86400) = some (year, month, day) →
      1980 ≤ year → year ≤ 2107 → ∃ t, fromDuration C duration = .ok t ∧
        asDuration C t = .ok (duration / 10000000 * 10000000)) ∧
    ∀ t stored, Stores C t stored → t.utcOffset &&& 0x80 ≠ 0 →
      ((∃ time : Nat, asDuration C t = .ok time ∧ time = stored - t.offset * 900 * 1000000000) ↔
        t.offset ≤ 0) := by
  refine ⟨fun duration year month day date first last => ?_, fun t stored stores valid => ?_⟩
  · obtain ⟨t, made, offset, stores⟩ := fromDuration_stores date first last
    refine ⟨t, made, ?_⟩
    rw [stores.asDuration_eq, offset, if_neg (by decide), add_zero]
  have read := stores.asDuration_eq
  rw [if_pos valid] at read
  constructor
  · rintro ⟨time, same, eq⟩
    cases read.symm.trans same
    omega
  · exact fun west => ⟨_, read, by omega⟩

/-- A calendar with one day. -/
def newYear1980 : Calendar where
  date n := if n = 3652 then some (1980, 1, 1) else none
  fromCalendarDate y m d := if (y, m, d) = (1980, 1, 1) then some 3652 else none
  correct h := by
    split at h <;> cases h
    simp [*]

/-- An hour east of Greenwich, the hour is added. -/
theorem hour_added : asDuration newYear1980 ⟨0, 1 <<< 5 ||| 1, 0, 0x80 ||| 4⟩ =
    .ok ((3652 * 86400 + 3600) * 10 ^ 9) := by decide +kernel

end DosTimestamp

end OmegaOsx.Exfat
