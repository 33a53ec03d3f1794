import Pintos.Core.Code
import Pintos.Core.Links

/-!
# lib/kernel/list.c

The heap is the `prev` and `next` links of the list elements, which are
addresses; 0 is the null pointer. A `struct list` is the addresses of its two
header elements, of which `head` comes first in the struct, so that a pointer
to the list is null when that of `head` is. Assertions are checked and a link
of the null pointer cannot be read or written. Loops run on a bound of the
number of iterations, which no caller of a list that is well formed exhausts.
`less` compares two elements; it does not look at their links.
-/
namespace Pintos.KernelList

open Pintos.Core

inductive Panic
  | assertion
  | null
  | bound            -- the loop has not ended within the bound of the model
  deriving DecidableEq

abbrev M := Code (Links Nat) Panic

/-- mirrors lib/kernel/list.h:91-102 -/
structure Hdr where
  head : Nat
  tail : Nat

/-! ## Links -/

def getNext (e : Nat) : M Nat := fun k => if e = 0 then .error .null else .ok (k.next e, k)

def getPrev (e : Nat) : M Nat := fun k => if e = 0 then .error .null else .ok (k.prev e, k)

def setNext (e v : Nat) : M Unit := fun k => if e = 0 then .error .null else .ok ((), k.setNext e v)

def setPrev (e v : Nat) : M Unit := fun k => if e = 0 then .error .null else .ok ((), k.setPrev e v)

/-- mirrors lib/kernel/list.c:38-57 -/
def isHead (k : Links Nat) (e : Nat) : Bool := e ≠ 0 ∧ k.prev e = 0 ∧ k.next e ≠ 0

def isInterior (k : Links Nat) (e : Nat) : Bool := e ≠ 0 ∧ k.prev e ≠ 0 ∧ k.next e ≠ 0

def isTail (k : Links Nat) (e : Nat) : Bool := e ≠ 0 ∧ k.prev e ≠ 0 ∧ k.next e = 0

/-- `ASSERT`, of a condition on the heap. -/
def assert (c : Links Nat → Bool) : M Unit := fun k => if c k then .ok ((), k) else .error .assertion

/-! ## Traversal -/

/-- mirrors lib/kernel/list.c:60-68 -/
def listInit (l : Hdr) : M Unit := do
  assert fun _ => l.head ≠ 0
  setPrev l.head 0
  setNext l.head l.tail
  setPrev l.tail l.head
  setNext l.tail 0

/-- mirrors lib/kernel/list.c:71-76 -/
def listBegin (l : Hdr) : M Nat := do
  assert fun _ => l.head ≠ 0
  getNext l.head

/-- mirrors lib/kernel/list.c:81-86 -/
def listNext (e : Nat) : M Nat := do
  assert fun k => isHead k e || isInterior k e
  getNext e

/-- mirrors lib/kernel/list.c:93-98 -/
def listEnd (l : Hdr) : M Nat := do
  assert fun _ => l.head ≠ 0
  pure l.tail

/-- mirrors lib/kernel/list.c:112-117 -/
def listPrev (e : Nat) : M Nat := do
  assert fun k => isInterior k e || isTail k e
  getPrev e

/-! ## Insertion and removal -/

/-- mirrors lib/kernel/list.c:168-178 -/
def listInsert (before elem : Nat) : M Unit := do
  assert fun k => isInterior k before || isTail k before
  assert fun _ => elem ≠ 0
  setPrev elem (← getPrev before)
  setNext elem before
  setNext (← getPrev before) elem
  setPrev before elem

/-- mirrors lib/kernel/list.c:183-204 -/
def listSplice (before first last : Nat) : M Unit := do
  assert fun k => isInterior k before || isTail k before
  if first = last then pure ()
  else do
    let last ← listPrev last
    assert fun k => isInterior k first
    assert fun k => isInterior k last
    setNext (← getPrev first) (← getNext last)
    setPrev (← getNext last) (← getPrev first)
    setPrev first (← getPrev before)
    setNext last before
    setNext (← getPrev before) first
    setPrev before last

/-- mirrors lib/kernel/list.c:208-212 -/
def listPushFront (l : Hdr) (elem : Nat) : M Unit := do
  listInsert (← listBegin l) elem

/-- mirrors lib/kernel/list.c:216-220 -/
def listPushBack (l : Hdr) (elem : Nat) : M Unit := do
  listInsert (← listEnd l) elem

/-- mirrors lib/kernel/list.c:248-254 -/
def listRemove (elem : Nat) : M Nat := do
  assert fun k => isInterior k elem
  setNext (← getPrev elem) (← getNext elem)
  setPrev (← getNext elem) (← getPrev elem)
  getNext elem

/-- mirrors lib/kernel/list.c:309-313 -/
def listEmpty (l : Hdr) : M Bool := do
  let b ← listBegin l
  let e ← listEnd l
  pure (b = e)

/-- mirrors lib/kernel/list.c:279-283 -/
def listFront (l : Hdr) : M Nat := do
  let empty ← listEmpty l
  assert fun _ => !empty
  getNext l.head

/-- mirrors lib/kernel/list.c:288-292 -/
def listBack (l : Hdr) : M Nat := do
  let empty ← listEmpty l
  assert fun _ => !empty
  getPrev l.tail

/-- mirrors lib/kernel/list.c:259-264 -/
def listPopFront (l : Hdr) : M Nat := do
  let front ← listFront l
  let _ ← listRemove front
  pure front

/-- mirrors lib/kernel/list.c:269-274 -/
def listPopBack (l : Hdr) : M Nat := do
  let back ← listBack l
  let _ ← listRemove back
  pure back

/-! ## Reversal -/

/-- `swap (&e->prev, &e->next)`.
mirrors lib/kernel/list.c:316-322 -/
def swapLinks (e : Nat) : M Unit := do
  let t ← getPrev e
  setPrev e (← getNext e)
  setNext e t

/-- mirrors lib/kernel/list.c:332-333 -/
def reverseLoop (stop : Nat) : Nat → Nat → M Unit
  | 0, _ => Code.fail .bound
  | n + 1, e =>
    if e = stop then pure ()
    else do
      swapLinks e
      reverseLoop stop n (← getPrev e)

/-- The two swaps after the loop are of `head.next` with `tail.prev`, and of
`head.next->prev` with `tail.prev->next`.
mirrors lib/kernel/list.c:325-337 -/
def listReverse (n : Nat) (l : Hdr) : M Unit := do
  if ← listEmpty l then pure ()
  else do
    reverseLoop (← listEnd l) n (← listBegin l)
    let t ← getNext l.head
    setNext l.head (← getPrev l.tail)
    setPrev l.tail t
    let t ← getPrev (← getNext l.head)
    setPrev (← getNext l.head) (← getNext (← getPrev l.tail))
    setNext (← getPrev l.tail) t

/-! ## Sorting -/

variable (less : Nat → Nat → Bool)

/-- mirrors lib/kernel/list.c:345-348 -/
def sortedLoop (b : Nat) : Nat → Nat → M Bool
  | 0, _ => Code.fail .bound
  | n + 1, a => do
    let a ← listNext a
    if a = b then pure true
    else do
      if less a (← listPrev a) then pure false else sortedLoop b n a

/-- mirrors lib/kernel/list.c:341-350 -/
def isSorted (n a b : Nat) : M Bool := if a ≠ b then sortedLoop less b n a else pure true

/-- mirrors lib/kernel/list.c:367-371 -/
def runLoop (b : Nat) : Nat → Nat → M Nat
  | 0, _ => Code.fail .bound
  | n + 1, a => do
    let a ← listNext a
    if a = b then pure a
    else do
      if less a (← listPrev a) then pure a else runLoop b n a

/-- `less` is a function here and not null.
mirrors lib/kernel/list.c:357-373 -/
def findEndOfRun (n a b : Nat) : M Nat := do
  assert fun _ => a ≠ 0
  assert fun _ => b ≠ 0
  assert fun _ => a ≠ b
  runLoop less b n a

/-- mirrors lib/kernel/list.c:392-399 -/
def mergeLoop (b1 : Nat) : Nat → Nat → Nat → M Unit
  | 0, _, _ => Code.fail .bound
  | n + 1, a0, a1b0 =>
    if a0 ≠ a1b0 ∧ a1b0 ≠ b1 then
      if less a1b0 a0 then do
        let a1b0 ← listNext a1b0
        listSplice a0 (← listPrev a1b0) a1b0
        mergeLoop b1 n a0 a1b0
      else do
        mergeLoop b1 n (← listNext a0) a1b0
    else pure ()

/-- mirrors lib/kernel/list.c:380-400 -/
def inplaceMerge (n a0 a1b0 b1 : Nat) : M Unit := do
  assert fun _ => a0 ≠ 0
  assert fun _ => a1b0 ≠ 0
  assert fun _ => b1 ≠ 0
  let sorted ← isSorted less n a0 a1b0
  assert fun _ => sorted
  let sorted ← isSorted less n a1b0 b1
  assert fun _ => sorted
  mergeLoop less b1 n a0 a1b0

/-- One pass from `a0` on: the number of runs that are output.
mirrors lib/kernel/list.c:420-435 -/
def passLoop (l : Hdr) (n : Nat) : Nat → Nat → M Nat
  | 0, _ => Code.fail .bound
  | c + 1, a0 => do
    if a0 = (← listEnd l) then pure 0
    else do
      let a1b0 ← findEndOfRun less n a0 (← listEnd l)
      if a1b0 = (← listEnd l) then pure 1
      else do
        let b1 ← findEndOfRun less n a1b0 (← listEnd l)
        inplaceMerge less n a0 a1b0 b1
        let cnt ← passLoop l n c b1
        pure (cnt + 1)

/-- mirrors lib/kernel/list.c:414-437 -/
def sortLoop (l : Hdr) (n : Nat) : Nat → M Unit
  | 0 => Code.fail .bound
  | c + 1 => do
    let outputRunCnt ← passLoop less l n n (← listBegin l)
    if outputRunCnt > 1 then sortLoop l n c else pure ()

/-- Every loop makes at most `n` iterations.
mirrors lib/kernel/list.c:405-440 -/
def listSort (n : Nat) (l : Hdr) : M Unit := do
  assert fun _ => l.head ≠ 0
  sortLoop less l n n
  let sorted ← isSorted less n (← listBegin l) (← listEnd l)
  assert fun _ => sorted

end Pintos.KernelList
