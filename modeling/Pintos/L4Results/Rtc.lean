import Pintos.L2Code.Rtc

/-!
# The time of day

`rtc_get_time` adds the days of the month that has begun, so it is ahead of the
calendar at every instant from 1970 to 2037 (`rtcGetTime_ahead`).
-/
namespace Pintos.Rtc

open Pintos.Lib (Stop int)

/-! ## The calendar -/

def isLeap (year : Nat) : Bool := year % 4 = 0 ∧ (year % 100 ≠ 0 ∨ year % 400 = 0)

def daysInYear (year : Nat) : Nat := if isLeap year then 366 else 365

def daysInMonth (year month : Nat) : Nat :=
  if month = 2 then if isLeap year then 29 else 28
  else if month ∈ [4, 6, 9, 11] then 30 else 31

/-- A date and a time of the Gregorian calendar, from 1970 to 2037. -/
structure Instant where
  year : Nat
  month : Nat
  day : Nat
  hour : Nat
  minute : Nat
  second : Nat
  year_range : 1970 ≤ year ∧ year ≤ 2037
  month_range : 1 ≤ month ∧ month ≤ 12
  day_range : 1 ≤ day ∧ day ≤ daysInMonth year month
  hour_lt : hour < 24
  minute_lt : minute < 60
  second_lt : second < 60

/-- The days from 1970-01-01 on. -/
def Instant.days (t : Instant) : Nat :=
  ∑ y ∈ Finset.Ico 1970 t.year, daysInYear y + ∑ m ∈ Finset.Ico 1 t.month, daysInMonth t.year m + (t.day - 1)

def Instant.unixTime (t : Instant) : Nat := ((t.days * 24 + t.hour) * 60 + t.minute) * 60 + t.second

def bcd (n : Nat) : UInt8 := UInt8.ofNat (n / 10 * 16 + n % 10)

/-- The registers show `t` at every read. -/
def Shows (cmos : Cmos) (t : Instant) : Prop := ∀ n, cmos n regSec = bcd t.second ∧ cmos n regMin = bcd t.minute ∧
  cmos n regHour = bcd t.hour ∧ cmos n regMday = bcd t.day ∧ cmos n regMon = bcd t.month ∧
  cmos n regYear = bcd (t.year % 100)

theorem bcdToBin_bcd : ∀ n < 100, bcdToBin (bcd n) = n := by decide

theorem Instant.day_lt (t : Instant) : t.day < 32 := by
  have hle := t.day_range.2
  unfold daysInMonth at hle
  split at hle
  · split at hle <;> omega
  · split at hle <;> omega

theorem readClock_eq {cmos : Cmos} {t : Instant} (h : Shows cmos t) (fuel : Nat) : readClock cmos (fuel + 1) 0 =
    some ⟨t.second, t.minute, t.hour, t.day, t.month, (t.year % 100 : Nat)⟩ := by
  have hs := t.second_lt
  have hm := t.minute_lt
  have hh := t.hour_lt
  have hmon := t.month_range
  have hday := t.day_lt
  simp only [readClock, (h _).1, (h _).2.1, (h _).2.2.1, (h _).2.2.2.1, (h _).2.2.2.2.1, (h _).2.2.2.2.2]
  rw [bcdToBin_bcd _ (by omega), bcdToBin_bcd _ (by omega), bcdToBin_bcd _ (by omega), bcdToBin_bcd _ (by omega),
    bcdToBin_bcd _ (by omega), bcdToBin_bcd _ (Nat.mod_lt _ (by decide)), if_neg (by simp)]

theorem sum_daysInYear : ∀ y < 68, ∑ k ∈ Finset.Ico 1970 (1970 + y), daysInYear k = 365 * y + (y + 1) / 4 := by
  decide

theorem sum_take_le (n : Nat) : (daysPerMonth.take n).sum ≤ 365 :=
  (List.Sublist.sum_le_sum (List.take_sublist n daysPerMonth) (by simp)).trans (by decide)

/-- Before a month there are the days of the table and at most one more. -/
theorem sum_daysInMonth (year : Nat) {month : Nat} (h : 1 ≤ month ∧ month ≤ 12) :
    ∑ m ∈ Finset.Ico 1 month, daysInMonth year m + 28 ≤ (daysPerMonth.take month).sum + 1 := by
  obtain ⟨hlo, hhi⟩ := h
  interval_cases month <;> cases hleap : isLeap year <;>
    simp [Finset.sum_Ico_succ_top, daysInMonth, hleap, daysPerMonth]

theorem seconds_ok {x : Int} (h0 : 0 ≤ x) (hx : x < 24855) : seconds x = .ok (86400 * x) := by
  have hint : ∀ y : Int, 0 ≤ y → y < 24855 * 86400 → int y = .ok y := fun y hy hlt => if_pos (by omega)
  simp only [seconds, bind, Except.bind, hint (x * 24) (by omega) (by omega),
    hint (x * 24 * 60) (by omega) (by omega), hint (x * 24 * 60 * 60) (by omega) (by omega)]
  rw [show x * 24 * 60 * 60 = 86400 * x by omega]

theorem add_ok (time : Nat) (x : Int) (h0 : 0 ≤ x) (h : time + x < 2 ^ 32) : add time x = time + x.toNat := by
  unfold add
  omega

theorem addMonths_ok (table : List Nat) {n : Nat} (time : Nat) (hn : n ≤ table.length) (htable : table.sum ≤ 365)
    (h : time + 86400 * table.sum < 2 ^ 32) :
    ∃ u, addMonths table n time = .ok u ∧ u = time + 86400 * (table.take n).sum := by
  induction table generalizing n time with
  | nil =>
    obtain rfl : n = 0 := Nat.le_zero.mp hn
    exact ⟨time, by rw [addMonths], by simp⟩
  | cons days table ih =>
    cases n with
    | zero => exact ⟨time, by rw [addMonths], by simp⟩
    | succ n =>
      rw [List.sum_cons] at htable h
      have hadd := add_ok time (86400 * (days : Int)) (by omega) (by omega)
      obtain ⟨u, hu, heq⟩ := ih (n := n) (add time (86400 * (days : Int))) (by simpa using hn) (by omega)
        (by omega)
      refine ⟨u, ?_, ?_⟩
      · rw [addMonths, seconds_ok (by omega) (by omega)]
        exact hu
      · rw [List.take_succ_cons, List.sum_cons]
        omega

theorem toTime_eq {c : Clock} {year days x₁ x₂ x₃ : Int} {time : Nat}
    (hyear : (if c.year < 70 then c.year + 100 else c.year) - 70 = year) (hdays : int (year * 365) = .ok days)
    (hleap : int (days + (year - 1).tdiv 4) = .ok x₁) (hstart : seconds x₁ = .ok x₂)
    (hloop : addMonths daysPerMonth c.mon.toNat (add 0 x₂) = .ok time) (hmday : seconds (c.mday - 1) = .ok x₃) :
    toTime c = .ok (add (add (add (add (if c.mon > 2 ∧ year.tmod 4 = 0 then add time (24 * 60 * 60) else time) x₃)
      (c.hour * 60 * 60)) (c.min * 60)) c.sec) := by
  simp only [toTime, hyear, bind, Except.bind, hdays, hleap, hstart, hloop, hmday]

theorem tdiv_years : ∀ y : Nat, y < 68 → ((y : Int) - 1).tdiv 4 = ((y - 1) / 4 : Nat) := by decide

/-- The code counts the month that has begun, and the leap days it counts are at
most two fewer than there are. -/
theorem toTime_ahead (t : Instant) : ∃ time, t.unixTime < time ∧
    toTime ⟨t.second, t.minute, t.hour, t.day, t.month, (t.year % 100 : Nat)⟩ = .ok time := by
  obtain ⟨y, hy⟩ : ∃ y, t.year = 1970 + y := ⟨t.year - 1970, by have := t.year_range; omega⟩
  have hy68 : y < 68 := by have := t.year_range; omega
  have hyear : (if ((t.year % 100 : Nat) : Int) < 70 then ((t.year % 100 : Nat) : Int) + 100 else (t.year % 100 : Nat))
      - 70 = (y : Int) := by
    split <;> omega
  have hs := t.second_lt
  have hm := t.minute_lt
  have hh := t.hour_lt
  have hday := t.day_lt
  have hday1 := t.day_range.1
  have hmonths := sum_daysInMonth t.year t.month_range
  have hyears := sum_daysInYear y hy68
  have hle := sum_take_le t.month
  have hquot := tdiv_years y hy68
  have hint : ∀ x : Int, 0 ≤ x → x < 2 ^ 31 → int x = .ok x := fun x h0 hx => if_pos (by omega)
  have hstart := add_ok 0 (86400 * (y * 365 + ((y : Int) - 1).tdiv 4)) (by omega) (by omega)
  have htable : daysPerMonth.sum = 365 := rfl
  obtain ⟨time, hloop, htime⟩ := addMonths_ok daysPerMonth
    (add 0 (86400 * (y * 365 + ((y : Int) - 1).tdiv 4))) t.month_range.2 (by omega) (by omega)
  refine ⟨_, ?_, toTime_eq hyear (hint _ (by omega) (by omega)) (hint _ (by omega) (by omega))
    (seconds_ok (by omega) (by omega)) hloop (seconds_ok (by dsimp only; omega) (by dsimp only; omega))⟩
  dsimp only
  have hleap : time ≤ (if (t.month : Int) > 2 ∧ (y : Int).tmod 4 = 0 then add time (24 * 60 * 60) else time) ∧
      (if (t.month : Int) > 2 ∧ (y : Int).tmod 4 = 0 then add time (24 * 60 * 60) else time) ≤ time + 86400 := by
    split
    · rw [add_ok _ _ (by omega) (by omega)]
      omega
    · omega
  generalize (if (t.month : Int) > 2 ∧ (y : Int).tmod 4 = 0 then add time (24 * 60 * 60) else time) = u at hleap ⊢
  have h₁ := add_ok u (86400 * ((t.day : Int) - 1)) (by omega) (by omega)
  generalize add u (86400 * ((t.day : Int) - 1)) = u₁ at h₁ ⊢
  have h₂ := add_ok u₁ ((t.hour : Int) * 60 * 60) (by omega) (by omega)
  generalize add u₁ ((t.hour : Int) * 60 * 60) = u₂ at h₂ ⊢
  have h₃ := add_ok u₂ ((t.minute : Int) * 60) (by omega) (by omega)
  generalize add u₂ ((t.minute : Int) * 60) = u₃ at h₃ ⊢
  have h₄ := add_ok u₃ ((t.second : Int)) (by omega) (by omega)
  rw [← hy] at hyears
  unfold Instant.unixTime Instant.days
  omega

/-- No date of the calendar is read as the seconds since the epoch: the time
returned is past it. -/
theorem rtcGetTime_ahead {cmos : Cmos} {t : Instant} (h : Shows cmos t) (fuel : Nat) :
    ∃ time, rtcGetTime cmos (fuel + 1) = some (.ok time) ∧ t.unixTime < time := by
  obtain ⟨time, hlt, htime⟩ := toTime_ahead t
  refine ⟨time, ?_, hlt⟩
  rw [rtcGetTime, readClock_eq h fuel, Option.map_some, htime]

/-- 1970-01-01 00:00:00. -/
def epoch : Instant where
  year := 1970
  month := 1
  day := 1
  hour := 0
  minute := 0
  second := 0
  year_range := by decide
  month_range := by decide
  day_range := by decide
  hour_lt := by decide
  minute_lt := by decide
  second_lt := by decide

/-- A clock that stands still at 1970-01-01 00:00:00. -/
def epochCmos : Cmos := fun _ reg =>
  if reg = regMday ∨ reg = regMon then bcd 1 else if reg = regYear then bcd 70 else bcd 0

theorem shows_epoch : Shows epochCmos epoch := fun _ => ⟨rfl, rfl, rfl, rfl, rfl, rfl⟩

theorem rtcGetTime_ahead_epoch :
    Shows epochCmos epoch ∧ ∃ time, rtcGetTime epochCmos 1 = some (.ok time) ∧ epoch.unixTime < time :=
  ⟨shows_epoch, rtcGetTime_ahead shows_epoch 0⟩

theorem rtcGetTime_epoch : epoch.unixTime = 0 ∧ rtcGetTime epochCmos 1 = some (.ok 2678400) := by
  decide

end Pintos.Rtc
