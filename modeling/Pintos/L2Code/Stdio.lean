import Mathlib

/-!
# Characters and integer bases of lib/stdio.c
-/
namespace Pintos.Stdio

/-- mirrors lib/stdio.c:130-139 -/
structure IntegerBase where
  base : Nat
  digits : List UInt8
  x : UInt8          -- 0 if there is none
  group : Nat

def ascii (s : String) : List UInt8 := s.toList.map fun c => c.toNat.toUInt8

def baseO : IntegerBase := ⟨8, ascii "01234567", 0, 3⟩

end Pintos.Stdio
