import Mathlib

/-!
# Words and bits in bytes

A 32-bit word as four bytes in memory order, and eight bits as one byte. Byte
strings are functions of the offset.
-/
namespace Pintos.Core

/-- Byte `i` of the word `x`. -/
def byteAt (x i : Nat) : UInt8 := UInt8.ofNat (x / 256 ^ i)

/-- The word at offset `o`. -/
def wordAt (b : Nat → UInt8) (o : Nat) : Nat :=
  (b o).toNat + (b (o + 1)).toNat * 256 + (b (o + 2)).toNat * 256 ^ 2 + (b (o + 3)).toNat * 256 ^ 3

theorem byteAt_toNat (x i : Nat) : (byteAt x i).toNat = x / 256 ^ i % 256 := by
  simp [byteAt]

theorem wordAt_of_byteAt {b : Nat → UInt8} {o x : Nat} (hx : x < 2 ^ 32)
    (h : ∀ i < 4, b (o + i) = byteAt x i) : wordAt b o = x := by
  have h0 := h 0 (by omega)
  have h1 := h 1 (by omega)
  have h2 := h 2 (by omega)
  have h3 := h 3 (by omega)
  rw [Nat.add_zero] at h0
  simp only [wordAt, h0, h1, h2, h3, byteAt_toNat]
  omega

theorem wordAt_lt (b : Nat → UInt8) (o : Nat) : wordAt b o < 2 ^ 32 := by
  have h0 := (b o).toNat_lt
  have h1 := (b (o + 1)).toNat_lt
  have h2 := (b (o + 2)).toNat_lt
  have h3 := (b (o + 3)).toNat_lt
  unfold wordAt
  omega

/-- A word depends on four bytes. -/
theorem wordAt_congr {b b' : Nat → UInt8} {o o' : Nat} (h : ∀ i < 4, b (o + i) = b' (o' + i)) :
    wordAt b o = wordAt b' o' := by
  have h0 := h 0 (by omega)
  rw [Nat.add_zero, Nat.add_zero] at h0
  simp only [wordAt, h0, h 1 (by omega), h 2 (by omega), h 3 (by omega)]

/-- `n` bytes from `o` on replaced by `f 0`, `f 1` and so on. -/
def patch (b : Nat → UInt8) (o n : Nat) (f : Nat → UInt8) : Nat → UInt8 := fun x =>
  if o ≤ x ∧ x < o + n then f (x - o) else b x

theorem patch_of_outside {b : Nat → UInt8} {o n x : Nat} {f : Nat → UInt8} (h : x < o ∨ o + n ≤ x) :
    patch b o n f x = b x :=
  if_neg (by omega)

/-- The word `x` stored at offset `o`. -/
def putWord (b : Nat → UInt8) (o x : Nat) : Nat → UInt8 := patch b o 4 (byteAt x)

theorem wordAt_putWord (b : Nat → UInt8) (o : Nat) {x : Nat} (hx : x < 2 ^ 32) : wordAt (putWord b o x) o = x := by
  refine wordAt_of_byteAt hx fun i hi => ?_
  rw [putWord, patch, if_pos (by omega), Nat.add_sub_cancel_left]

theorem wordAt_putWord_ne (b : Nat → UInt8) {o o' : Nat} (x : Nat) (h : o' + 4 ≤ o ∨ o + 4 ≤ o') :
    wordAt (putWord b o x) o' = wordAt b o' :=
  wordAt_congr fun _ _ => patch_of_outside (by omega)

/-- Eight bits, the first in the lowest place. -/
def packByte (f : Nat → Bool) : UInt8 :=
  UInt8.ofNat ((f 0).toNat + (f 1).toNat * 2 + (f 2).toNat * 4 + (f 3).toNat * 8 + (f 4).toNat * 16 +
    (f 5).toNat * 32 + (f 6).toNat * 64 + (f 7).toNat * 128)

/-- Bit `j` of a byte. -/
def bitOf (b : UInt8) (j : Nat) : Bool := decide (b.toNat / 2 ^ j % 2 = 1)

theorem bitOf_packByte (f : Nat → Bool) {j : Nat} (hj : j < 8) : bitOf (packByte f) j = f j := by
  have key : ∀ b0 b1 b2 b3 b4 b5 b6 b7 : Bool, ∀ i : Fin 8,
      bitOf (UInt8.ofNat (b0.toNat + b1.toNat * 2 + b2.toNat * 4 + b3.toNat * 8 + b4.toNat * 16 +
        b5.toNat * 32 + b6.toNat * 64 + b7.toNat * 128)) i = [b0, b1, b2, b3, b4, b5, b6, b7].getD i false := by
    decide +kernel
  have := key (f 0) (f 1) (f 2) (f 3) (f 4) (f 5) (f 6) (f 7) ⟨j, hj⟩
  rw [packByte, this]
  interval_cases j <;> rfl

end Pintos.Core
