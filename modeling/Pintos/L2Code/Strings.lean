import Pintos.Core.Code

/-!
# Blocks of memory and strings (lib/string.c, lib/stdlib.c, lib/ctype.h)

`memmove` runs on a flat memory with 32-bit addresses, since its blocks may
overlap. The functions on strings run on objects: a string is the list of its
bytes up to and with the terminator, a pointer is an offset, and a read or a
write beyond the object stops with `beyond`.
-/
namespace Pintos.Lib
open Pintos.Core

/-- Why a function does not return. -/
inductive Stop where
  | assertion
  | beyond       -- an access beyond the end of an object
  | overflow     -- an `int` computation leaves the range of `int`
deriving DecidableEq, Repr

/-- `ASSERT (p)` -/
def assert {σ : Type} (p : Prop) [Decidable p] : Code σ Stop Unit := if p then pure () else Code.fail .assertion

/-! ## `memmove` -/

abbrev Ptr := BitVec 32

abbrev Memory := Ptr → UInt8

/-- mirrors lib/string.c:34-35 -/
def copyUp : Nat → Ptr → Ptr → Code Memory Stop Ptr
  | 0, dst, _ => pure dst
  | size + 1, dst, src => do
    Code.modify fun m => Function.update m dst (m src)
    copyUp size (dst + 1) (src + 1)

/-- mirrors lib/string.c:41-42 -/
def copyDown : Nat → Ptr → Ptr → Code Memory Stop Ptr
  | 0, dst, _ => pure dst
  | size + 1, dst, src => do
    Code.modify fun m => Function.update m (dst - 1) (m (src - 1))
    copyDown size (dst - 1) (src - 1)

/-- mirrors lib/string.c:23-46 -/
def memmove (dst src : Ptr) (size : BitVec 32) : Code Memory Stop Ptr := do
  assert (dst ≠ 0 ∨ size = 0)
  assert (src ≠ 0 ∨ size = 0)
  if dst < src then copyUp size.toNat dst src
  else copyDown size.toNat (dst + size) (src + size)

/-! ## Comparison -/

/-- On the objects from `a` and `b` on.
mirrors lib/string.c:53-66 -/
def memcmp : List UInt8 → List UInt8 → Nat → Except Stop Int
  | _, _, 0 => .ok 0
  | a :: as, b :: bs, size + 1 => if a ≠ b then .ok (if a > b then 1 else -1) else memcmp as bs size
  | _, _, _ + 1 => .error .beyond

/-- mirrors lib/string.c:73-89 -/
def strcmp : List UInt8 → List UInt8 → Except Stop Int
  | a :: as, b :: bs =>
    if a ≠ 0 ∧ a = b then strcmp as bs else .ok (if a < b then -1 else if a > b then 1 else 0)
  | _, _ => .error .beyond

/-! ## `strtok_r` -/

/-- The object from `string` on; the result is an offset, none for `NULL`.
mirrors lib/string.c:112-126 -/
def strchr (c : UInt8) : List UInt8 → Nat → Except Stop (Option Nat)
  | [], _ => .error .beyond
  | b :: rest, string =>
    if b = c then .ok (some string)
    else if b = 0 then .ok none
    else strchr c rest (string + 1)

/-- The loop that skips delimiters, over the object from `s` on. False if it
meets the terminator.
mirrors lib/string.c:248-260 -/
def skipDelimiters (delimiters : List UInt8) : List UInt8 → Nat → Except Stop (Nat × Bool)
  | [], _ => .error .beyond
  | b :: rest, s => do
    let p ← strchr b delimiters 0
    if p ≠ none then
      if b = 0 then .ok (s, false) else skipDelimiters delimiters rest (s + 1)
    else .ok (s, true)

/-- mirrors lib/string.c:264-265 -/
def skipToken (delimiters : List UInt8) : List UInt8 → Nat → Except Stop Nat
  | [], _ => .error .beyond
  | b :: rest, s => do
    let p ← strchr b delimiters 0
    if p = none then skipToken delimiters rest (s + 1) else .ok s

/-- A computation that only reads the object. -/
def reading {α : Type} (f : List UInt8 → Except Stop α) : Code (List UInt8) Stop α := fun b =>
  match f b with
  | .ok a => .ok (a, b)
  | .error e => .error e

def load (s : Nat) : Code (List UInt8) Stop UInt8 :=
  reading fun b => match b[s]? with
    | some c => .ok c
    | none => .error .beyond

def store (s : Nat) (c : UInt8) : Code (List UInt8) Stop Unit := fun b =>
  if s < b.length then .ok ((), b.set s c) else .error .beyond

/-- The token and the new `*save_ptr`; none is `NULL`.
mirrors lib/string.c:234-275 -/
def strtokR (s : Option Nat) (delimiters : List UInt8) (savePtr : Option Nat) :
    Code (List UInt8) Stop (Option Nat × Option Nat) := do
  let s := if s = none then savePtr else s
  match s with
  | none => Code.fail .assertion
  | some s => do
    let (token, found) ← reading fun b => skipDelimiters delimiters (b.drop s) s
    if found = false then pure (none, some token)
    else do
      let s ← reading fun b => skipToken delimiters (b.drop token) token
      let c ← load s
      if c ≠ 0 then do
        store s 0
        pure (some token, some (s + 1))
      else pure (some token, some s)

/-! ## `atoi` -/

/-- mirrors lib/ctype.h:7 -/
def isdigit (c : UInt8) : Bool := 0x30 ≤ c ∧ c ≤ 0x39

/-- mirrors lib/ctype.h:12-15 -/
def isspace (c : UInt8) : Bool := c ∈ [0x20, 0x0c, 0x0a, 0x0d, 0x09, 0x0b]

/-- A result of type `int`. -/
def int (x : Int) : Except Stop Int := if -2 ^ 31 ≤ x ∧ x < 2 ^ 31 then .ok x else .error .overflow

/-- mirrors lib/stdlib.c:18-19 -/
def skipSpace : List UInt8 → Except Stop (List UInt8)
  | [] => .error .beyond
  | c :: s => if isspace c then skipSpace s else .ok (c :: s)

/-- mirrors lib/stdlib.c:35-36 -/
def parseDigits : Int → List UInt8 → Except Stop Int
  | _, [] => .error .beyond
  | value, c :: s =>
    if isdigit c then do
      let tens ← int (value * 10)
      let value ← int (tens - (c.toNat - 0x30))
      parseDigits value s
    else .ok value

/-- The object is the string from `s` on.
mirrors lib/stdlib.c:9-41 -/
def atoi (s : List UInt8) : Except Stop Int := do
  let s ← skipSpace s
  match s with
  | [] => .error .beyond
  | c :: rest => do
    let negative : Bool := c = 0x2d
    let value ← parseDigits 0 (if c = 0x2b ∨ c = 0x2d then rest else c :: rest)
    if negative then .ok value else int (-value)

end Pintos.Lib
