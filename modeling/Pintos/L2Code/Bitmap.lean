import Pintos.L2Code.Strings

/-!
# Bitmaps (lib/kernel/bitmap.c)

Bits are packed into 32-bit elements. Indexes and counts are `size_t` values;
sums wrap. An access to an element beyond the array stops with `beyond`.
-/
namespace Pintos.KernelBitmap
open Pintos.Lib (Stop)

/-- mirrors lib/kernel/bitmap.c:33-38 -/
def elemIdx (bitIdx : Nat) : Nat := bitIdx / 32

/-- mirrors lib/kernel/bitmap.c:40-46 -/
def bitMask (bitIdx : Nat) : BitVec 32 := 1#32 <<< (bitIdx % 32)

/-- mirrors lib/kernel/bitmap.c:48-53 -/
def elemCnt (bitCnt : Nat) : Nat := (bitCnt + 31) % 2 ^ 32 / 32

/-- A bitmap with its elements. `stored` is the test by which `bitmap_create`
gives up a bitmap that got no memory (bitmap.c:86): the sizes for which `elem_cnt`
wraps round ask for none.
mirrors lib/kernel/bitmap.c:27-31 -/
structure Bitmap where
  bitCnt : Nat
  bits : List (BitVec 32)
  word : bitCnt < 2 ^ 32
  length : bits.length = elemCnt bitCnt
  stored : bits ≠ [] ∨ bitCnt = 0

/-- `b` with the element `e` at `idx`. -/
def Bitmap.setElem (b : Bitmap) (idx : Nat) (e : BitVec 32) : Bitmap where
  bitCnt := b.bitCnt
  bits := b.bits.set idx e
  word := b.word
  length := by rw [List.length_set]; exact b.length
  stored := by rw [ne_eq, List.set_eq_nil_iff]; exact b.stored

/-- `BITMAP_ERROR`, which is `SIZE_MAX`. -/
def bitmapError : Nat := 2 ^ 32 - 1

def assert (p : Prop) [Decidable p] : Except Stop Unit := if p then .ok () else .error .assertion

/-- An instruction on `b->bits[idx]`. -/
def update (b : Bitmap) (idx : Nat) (f : BitVec 32 → BitVec 32) : Except Stop Bitmap :=
  match b.bits[idx]? with
  | none => .error .beyond
  | some e => .ok (b.setElem idx (f e))

/-- mirrors lib/kernel/bitmap.c:157-167 -/
def bitmapMark (b : Bitmap) (bitIdx : Nat) : Except Stop Bitmap :=
  update b (elemIdx bitIdx) (· ||| bitMask bitIdx)

/-- mirrors lib/kernel/bitmap.c:170-180 -/
def bitmapReset (b : Bitmap) (bitIdx : Nat) : Except Stop Bitmap :=
  update b (elemIdx bitIdx) (· &&& ~~~bitMask bitIdx)

/-- mirrors lib/kernel/bitmap.c:144-154 -/
def bitmapSet (b : Bitmap) (idx : Nat) (value : Bool) : Except Stop Bitmap := do
  assert (idx < b.bitCnt)
  if value then bitmapMark b idx else bitmapReset b idx

/-- mirrors lib/kernel/bitmap.c:198-204 -/
def bitmapTest (b : Bitmap) (idx : Nat) : Except Stop Bool := do
  assert (idx < b.bitCnt)
  match b.bits[elemIdx idx]? with
  | none => .error .beyond
  | some e => .ok (e &&& bitMask idx ≠ 0)

/-- The `n` steps from `i` on of `for (i = 0; i < cnt; i++)`. -/
def setLoop (start : Nat) (value : Bool) : Nat → Nat → Bitmap → Except Stop Bitmap
  | 0, _, b => .ok b
  | n + 1, i, b => do
    let b ← bitmapSet b ((start + i) % 2 ^ 32) value
    setLoop start value n (i + 1) b

/-- mirrors lib/kernel/bitmap.c:218-229 -/
def bitmapSetMultiple (b : Bitmap) (start cnt : Nat) (value : Bool) : Except Stop Bitmap := do
  assert (start ≤ b.bitCnt)
  assert ((start + cnt) % 2 ^ 32 ≤ b.bitCnt)
  setLoop start value cnt 0 b

def containsLoop (b : Bitmap) (start : Nat) (value : Bool) : Nat → Nat → Except Stop Bool
  | 0, _ => .ok false
  | n + 1, i => do
    let bit ← bitmapTest b ((start + i) % 2 ^ 32)
    if bit = value then .ok true else containsLoop b start value n (i + 1)

/-- mirrors lib/kernel/bitmap.c:251-264 -/
def bitmapContains (b : Bitmap) (start cnt : Nat) (value : Bool) : Except Stop Bool := do
  assert (start ≤ b.bitCnt)
  assert ((start + cnt) % 2 ^ 32 ≤ b.bitCnt)
  containsLoop b start value cnt 0

/-- The `n` steps from `i` on of `for (i = start; i <= last; i++)`, where `last` is
at most the size, so that `i++` never wraps. -/
def scanLoop (b : Bitmap) (cnt : Nat) (value : Bool) : Nat → Nat → Except Stop Nat
  | 0, _ => .ok bitmapError
  | n + 1, i => do
    let other ← bitmapContains b i cnt (!value)
    if other = false then .ok i else scanLoop b cnt value n (i + 1)

/-- mirrors lib/kernel/bitmap.c:296-310 -/
def bitmapScan (b : Bitmap) (start cnt : Nat) (value : Bool) : Except Stop Nat := do
  assert (start ≤ b.bitCnt)
  if cnt ≤ b.bitCnt then scanLoop b cnt value (b.bitCnt - cnt + 1 - start) start else .ok bitmapError

/-- mirrors lib/kernel/bitmap.c:319-326 -/
def bitmapScanAndFlip (b : Bitmap) (start cnt : Nat) (value : Bool) : Except Stop (Nat × Bitmap) := do
  let idx ← bitmapScan b start cnt value
  if idx ≠ bitmapError then do
    let b ← bitmapSetMultiple b idx cnt (!value)
    .ok (idx, b)
  else .ok (idx, b)

end Pintos.KernelBitmap
