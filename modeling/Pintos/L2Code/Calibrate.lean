import Pintos.L2Code.Strings

/-!
# Calibration of busy waiting (devices/timer.c)

`tooMany k` is what `too_many_loops (k)` returns. Numbers are of type
`unsigned`, and a loop that is given too little fuel has no result.
-/
namespace Pintos.Timer

open Pintos.Lib (Stop)

/-- mirrors devices/timer.c:59-63 -/
def doubleLoops (tooMany : Nat → Bool) : Nat → Nat → Option (Except Stop Nat)
  | 0, _ => none
  | fuel + 1, loopsPerTick =>
    let next := (loopsPerTick <<< 1) % 2 ^ 32
    if tooMany next then some (.ok loopsPerTick)
    else if next = 0 then some (.error .assertion)
    else doubleLoops tooMany fuel next

/-- mirrors devices/timer.c:67-69 -/
def refineLoops (tooMany : Nat → Bool) (highBit : Nat) : Nat → Nat → Nat → Option Nat
  | 0, _, _ => none
  | fuel + 1, testBit, loopsPerTick =>
    if testBit = highBit >>> 10 then some loopsPerTick
    else refineLoops tooMany highBit fuel (testBit >>> 1)
      (if tooMany (highBit ||| testBit) then loopsPerTick else loopsPerTick ||| testBit)

/-- The value of `loops_per_tick`, when interrupts are on.
mirrors devices/timer.c:48-72 -/
def timerCalibrate (tooMany : Nat → Bool) (fuel : Nat) : Option (Except Stop Nat) :=
  match doubleLoops tooMany fuel (1 <<< 10) with
  | some (.ok highBit) => (refineLoops tooMany highBit fuel (highBit >>> 1) highBit).map .ok
  | r => r

end Pintos.Timer
