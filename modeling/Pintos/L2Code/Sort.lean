import Mathlib

/-!
# Sorting arrays and searching them (lib/stdlib.c)

The array is an object of `cnt * size` bytes; an access to a byte that is not in
it stops with `beyond`. Indexes and offsets are `size_t` values and wrap. A
comparison function is what it answers for the bytes of two elements and the
auxiliary data. The loops of `heapify` and `binary_search` have no bound of
their own: `fuel` is the number of rounds they are followed for.
-/
namespace Pintos.Sort

inductive Fault
  | assertion
  | beyond      -- a byte that is not in the array
  | fuel        -- the loop goes on
  deriving DecidableEq

/-- The bytes of the array, by offset. -/
abbrev Bytes := Nat → UInt8

def load (len : Nat) (m : Bytes) (x : Nat) : Except Fault UInt8 := if x < len then .ok (m x) else .error .beyond

def store (len : Nat) (m : Bytes) (x : Nat) (v : UInt8) : Except Fault Bytes :=
  if x < len then .ok (Function.update m x v) else .error .beyond

def assert (p : Prop) [Decidable p] : Except Fault Unit := if p then .ok () else .error .assertion

/-- `(idx - 1) * size`, where the element with the 1-based index `idx` starts. -/
def offset (idx size : Nat) : Nat := (idx + (2 ^ 32 - 1)) % 2 ^ 32 * size % 2 ^ 32

/-- The `n` rounds from `i` on of the loop of `do_swap`. -/
def swapLoop (len a b : Nat) : Nat → Nat → Bytes → Except Fault Bytes
  | 0, _, m => .ok m
  | n + 1, i, m => do
    let t ← load len m ((a + i) % 2 ^ 32)
    let u ← load len m ((b + i) % 2 ^ 32)
    let m ← store len m ((a + i) % 2 ^ 32) u
    let m ← store len m ((b + i) % 2 ^ 32) t
    swapLoop len a b n (i + 1) m

/-- mirrors lib/stdlib.c:64-79 -/
def doSwap (len : Nat) (m : Bytes) (aIdx bIdx size : Nat) : Except Fault Bytes :=
  swapLoop len (offset aIdx size) (offset bIdx size) size 0 m

abbrev Element (size : Nat) := Vector UInt8 size

/-- The bytes of an element, as a comparison function reads them. -/
def readElement (len : Nat) (m : Bytes) (start size : Nat) : Except Fault (Element size) :=
  if start + size ≤ len then .ok (Vector.ofFn fun i => m (start + i)) else .error .beyond

/-- A comparison of two elements, given the auxiliary data. -/
abbrev Compare (size : Nat) (A : Type) := Element size → Element size → A → Int

variable {A : Type}

/-- mirrors lib/stdlib.c:81-91 -/
def doCompare (len : Nat) (m : Bytes) (aIdx bIdx size : Nat) (compare : Compare size A) (aux : A) :
    Except Fault Int := do
  let a ← readElement len m (offset aIdx size) size
  let b ← readElement len m (offset bIdx size) size
  .ok (compare a b aux)

/-- `if (child <= cnt && do_compare (array, child, max, ...) > 0) max = child`. -/
def larger (len : Nat) (m : Bytes) (child max cnt size : Nat) (compare : Compare size A) (aux : A) :
    Except Fault Nat :=
  if child ≤ cnt then do
    let c ← doCompare len m child max size compare aux
    if 0 < c then .ok child else .ok max
  else .ok max

/-- mirrors lib/stdlib.c:93-123 -/
def heapify (len cnt size : Nat) (compare : Compare size A) (aux : A) : Nat → Nat → Bytes → Except Fault Bytes
  | 0, _, _ => .error .fuel
  | fuel + 1, i, m => do
    let left := 2 * i % 2 ^ 32
    let right := (2 * i + 1) % 2 ^ 32
    let max ← larger len m left i cnt size compare aux
    let max ← larger len m right max cnt size compare aux
    if max = i then .ok m
    else do
      let m ← doSwap len m i max size
      heapify len cnt size compare aux fuel max m

/-- The rounds of `for (i = cnt / 2; i > 0; i--)` from `i` on. -/
def buildLoop (len cnt size : Nat) (compare : Compare size A) (aux : A) (fuel : Nat) :
    Nat → Bytes → Except Fault Bytes
  | 0, m => .ok m
  | i + 1, m => do
    let m ← heapify len cnt size compare aux fuel (i + 1) m
    buildLoop len cnt size compare aux fuel i m

/-- The rounds of `for (i = cnt; i > 1; i--)` from `i` on. -/
def extractLoop (len size : Nat) (compare : Compare size A) (aux : A) (fuel : Nat) :
    Nat → Bytes → Except Fault Bytes
  | 0, m => .ok m
  | 1, m => .ok m
  | i + 2, m => do
    let m ← doSwap len m 1 (i + 2) size
    let m ← heapify len (i + 1) size compare aux fuel 1 m
    extractLoop len size compare aux fuel (i + 1) m

/-- mirrors lib/stdlib.c:125-152 -/
def sort (fuel array cnt size : Nat) (compare : Compare size A) (aux : A) (m : Bytes) : Except Fault Bytes := do
  assert (array ≠ 0 ∨ cnt = 0)
  assert (0 < size)
  let m ← buildLoop (cnt * size) cnt size compare aux fuel (cnt / 2) m
  extractLoop (cnt * size) size compare aux fuel cnt m

/-- mirrors lib/stdlib.c:43-49 -/
def compareThunk {size : Nat} : Compare size (Element size → Element size → Int) := fun a b compare => compare a b

/-- mirrors lib/stdlib.c:57-62 -/
def qsort (fuel array cnt size : Nat) (compare : Element size → Element size → Int) (m : Bytes) :
    Except Fault Bytes :=
  sort fuel array cnt size compareThunk compare m

/-- The loop of `binary_search`, where a key may be of another type than the
elements. Pointers are offsets, and null is `none`.
mirrors lib/stdlib.c:192-204 -/
def searchLoop {K : Type} {size : Nat} (len : Nat) (key : K) (compare : K → Element size → A → Int) (aux : A)
    (m : Bytes) : Nat → Nat → Nat → Except Fault (Option Nat)
  | 0, _, _ => .error .fuel
  | fuel + 1, first, last =>
    if first < last then do
      let range := (last - first) / size
      let middle := first + range / 2 * size % 2 ^ 32
      let e ← readElement len m middle size
      let cmp := compare key e aux
      if cmp < 0 then searchLoop len key compare aux m fuel first middle
      else if cmp > 0 then searchLoop len key compare aux m fuel (middle + size) last
      else .ok (some middle)
    else .ok none

/-- mirrors lib/stdlib.c:184-207 -/
def binarySearch {K : Type} (fuel : Nat) (key : K) (cnt size : Nat) (compare : K → Element size → A → Int) (aux : A)
    (m : Bytes) : Except Fault (Option Nat) :=
  searchLoop (cnt * size) key compare aux m fuel 0 (size * cnt % 2 ^ 32)

/-- mirrors lib/stdlib.c:165-170 -/
def bsearch {size : Nat} (fuel : Nat) (key : Element size) (cnt : Nat)
    (compare : Element size → Element size → Int) (m : Bytes) : Except Fault (Option Nat) :=
  binarySearch fuel key cnt size compareThunk compare m

end Pintos.Sort
