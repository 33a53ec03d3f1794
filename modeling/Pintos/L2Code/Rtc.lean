import Pintos.L2Code.Strings

/-!
# The real-time clock (devices/rtc.c)
-/
namespace Pintos.Rtc

open Pintos.Lib (Stop int)

/-- What each register holds at the `n`-th read. -/
abbrev Cmos := Nat → UInt8 → UInt8

/-! mirrors devices/rtc.c:16-21 -/

def regSec : UInt8 := 0
def regMin : UInt8 := 2
def regHour : UInt8 := 4
def regMday : UInt8 := 7
def regMon : UInt8 := 8
def regYear : UInt8 := 9

/-- mirrors devices/rtc.c:99-103 -/
def bcdToBin (x : UInt8) : Int := (x &&& 0x0f).toNat + (x >>> 4).toNat * 10

structure Clock where
  sec : Int
  min : Int
  hour : Int
  mday : Int
  mon : Int
  year : Int

/-- The loop from the `n`-th read on, for at most `fuel` rounds of seven reads.
mirrors devices/rtc.c:65-74 -/
def readClock (cmos : Cmos) : Nat → Nat → Option Clock
  | 0, _ => none
  | fuel + 1, n =>
    let c : Clock := ⟨bcdToBin (cmos n regSec), bcdToBin (cmos (n + 1) regMin), bcdToBin (cmos (n + 2) regHour),
      bcdToBin (cmos (n + 3) regMday), bcdToBin (cmos (n + 4) regMon), bcdToBin (cmos (n + 5) regYear)⟩
    if c.sec ≠ bcdToBin (cmos (n + 6) regSec) then readClock cmos fuel (n + 7) else some c

/-- mirrors devices/rtc.c:45-48 -/
def daysPerMonth : List Nat := [31, 28, 31, 30, 31, 30, 31, 31, 30, 31, 30, 31]

/-- `x * 24 * 60 * 60`, of type `int`. -/
def seconds (x : Int) : Except Stop Int := do
  let hours ← int (x * 24)
  let minutes ← int (hours * 60)
  int (minutes * 60)

/-- `time += x` for an `unsigned long`. -/
def add (time : Nat) (x : Int) : Nat := ((time + x) % 2 ^ 32).toNat

/-- The last `n` rounds of the loop over the months, with what is left of the table.
mirrors devices/rtc.c:86-87 -/
def addMonths : List Nat → Nat → Nat → Except Stop Nat
  | _, 0, time => .ok time
  | [], _ + 1, _ => .error .beyond
  | days :: table, n + 1, time => do
    let x ← seconds days
    addMonths table n (add time x)

/-- `sec`, `min` and `hour` are at most 165, so their products are not checked.
mirrors devices/rtc.c:80-95 -/
def toTime (c : Clock) : Except Stop Nat := do
  let year := (if c.year < 70 then c.year + 100 else c.year) - 70
  let days ← int (year * 365)
  let days ← int (days + (year - 1).tdiv 4)
  let time ← seconds days
  let time ← addMonths daysPerMonth c.mon.toNat (add 0 time)
  let time := if c.mon > 2 ∧ year.tmod 4 = 0 then add time (24 * 60 * 60) else time
  let x ← seconds (c.mday - 1)
  let time := add time x
  let time := add time (c.hour * 60 * 60)
  let time := add time (c.min * 60)
  .ok (add time c.sec)

/-- mirrors devices/rtc.c:42-96 -/
def rtcGetTime (cmos : Cmos) (fuel : Nat) : Option (Except Stop Nat) := (readClock cmos fuel 0).map toTime

end Pintos.Rtc
