import Mathlib

/-!
# 64-bit division (lib/arithmetic.c)

The routines that the compiler calls for division and remainder of 64-bit
integers. Words are bit vectors of their type's width, and conversions between
the types are written out: the functions for remainders return 32 bits. None
is a divide error: `divl` traps when the quotient does not fit in 32 bits.
-/
namespace Pintos.Arith

/-- mirrors lib/arithmetic.c:25-37 -/
def divl (n : BitVec 64) (d : BitVec 32) : Option (BitVec 32) :=
  if d = 0 ∨ 2 ^ 32 ≤ n.toNat / d.toNat then none else some (BitVec.ofNat 32 (n.toNat / d.toNat))

/-- One step of `nlz`: the bits counted so far, and what is left of `x`. -/
def nlzStep (limit : BitVec 32) (k : Nat) (nx : Nat × BitVec 32) : Nat × BitVec 32 :=
  if nx.2 ≤ limit then (nx.1 + k, nx.2 <<< k) else nx

/-- mirrors lib/arithmetic.c:41-73 -/
def nlz (x : BitVec 32) : Nat :=
  let nx := nlzStep 0x3FFFFFFF 2 (nlzStep 0x0FFFFFFF 4 (nlzStep 0x00FFFFFF 8 (nlzStep 0x0000FFFF 16 (0, x))))
  if nx.2 ≤ 0x7FFFFFFF then nx.1 + 1 else nx.1

/-- mirrors lib/arithmetic.c:77-127 -/
def udiv64 (n d : BitVec 64) : Option (BitVec 64) :=
  if d >>> 32 = 0 then do
    let b := (1 : BitVec 64) <<< 32
    let n1 : BitVec 32 := (n >>> 32).setWidth 32
    let n0 : BitVec 32 := n.setWidth 32
    let d0 : BitVec 32 := d.setWidth 32
    let q ← divl (b * (n1 % d0).setWidth 64 + n0.setWidth 64) d0
    pure (q.setWidth 64 + b * (n1 / d0).setWidth 64)
  else if n < d then some 0
  else do
    let d1 : BitVec 32 := (d >>> 32).setWidth 32
    let s := nlz d1
    let q32 ← divl (n >>> 1) (((d <<< s) >>> 32).setWidth 32)
    let q : BitVec 64 := (q32 >>> (31 - s)).setWidth 64
    pure (if n - (q - 1) * d < d then q - 1 else q)

/-- mirrors lib/arithmetic.c:131-135 -/
def umod64 (n d : BitVec 64) : Option (BitVec 32) := do
  let q ← udiv64 n d
  pure ((n - d * q).setWidth 32)

/-- mirrors lib/arithmetic.c:139-146 -/
def sdiv64 (n d : BitVec 64) : Option (BitVec 64) := do
  let nAbs := if 0 ≤ n.toInt then n else -n
  let dAbs := if 0 ≤ d.toInt then d else -d
  let qAbs ← udiv64 nAbs dAbs
  pure (if decide (n.toInt < 0) = decide (d.toInt < 0) then qAbs else -qAbs)

/-- mirrors lib/arithmetic.c:150-154 -/
def smod64 (n d : BitVec 64) : Option (BitVec 32) := do
  let q ← sdiv64 n d
  pure ((n - d * q).setWidth 32)

/-- mirrors lib/arithmetic.c:164-168 -/
def divdi3 (n d : BitVec 64) : Option (BitVec 64) := sdiv64 n d

/-- The remainder is an `int32_t` and is extended with its sign.
mirrors lib/arithmetic.c:171-175 -/
def moddi3 (n d : BitVec 64) : Option (BitVec 64) := do
  let r ← smod64 n d
  pure (r.signExtend 64)

/-- mirrors lib/arithmetic.c:178-182 -/
def udivdi3 (n d : BitVec 64) : Option (BitVec 64) := udiv64 n d

/-- The remainder is a `uint32_t` and is extended with zeros.
mirrors lib/arithmetic.c:185-189 -/
def umoddi3 (n d : BitVec 64) : Option (BitVec 64) := do
  let r ← umod64 n d
  pure (r.setWidth 64)

end Pintos.Arith
