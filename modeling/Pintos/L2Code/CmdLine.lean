import Pintos.L1Data.State

/-!
# The initial stack page

`push`, `reverse` and `init_cmd_line` of userprog/process.c, with the
`strtok_r` of lib/string.c that splits the command line in place. They run
on the bytes of one page; `ofs` and the pointers into the page are offsets.
-/
namespace Pintos.Vm

/-- The bytes of a page. -/
abbrev Mem := Nat → Byte

def space : Byte := 0x20

/-- `memcpy (m + at, bs, size)`. -/
def Mem.put (m : Mem) (pos : Nat) (bs : List Byte) : Mem := fun o =>
  if pos ≤ o ∧ o < pos + bs.length then bs.getD (o - pos) 0 else m o

/-- A 32-bit word in memory order. -/
def wordBytes (x : Nat) : List Byte :=
  [UInt8.ofNat x, UInt8.ofNat (x / 2 ^ 8), UInt8.ofNat (x / 2 ^ 16), UInt8.ofNat (x / 2 ^ 24)]

def Mem.word (m : Mem) (o : Nat) : Nat :=
  (m o).toNat + (m (o + 1)).toNat * 2 ^ 8 + (m (o + 2)).toNat * 2 ^ 16 + (m (o + 3)).toNat * 2 ^ 24

/-- The page, `*ofs` and the offset of the object pushed last. -/
structure Push where
  mem : Mem
  ofs : Nat
  obj : Nat

/-- mirrors userprog/process.c:539-550 -/
def push (m : Mem) (ofs : Nat) (buf : List Byte) : Option Push :=
  let padsize := roundUp buf.length 4
  if ofs < padsize then none
  else
    let pos := ofs - padsize + (padsize - buf.length)
    some ⟨m.put pos buf, ofs - padsize, pos⟩

/-! ## `strtok_r` with the delimiter `" "` (lib/string.c:234-275) -/

/-- Skips spaces; `n` bounds the number of steps. -/
def skipSpaces (m : Mem) : Nat → Nat → Nat
  | 0, s => s
  | n + 1, s => if m s = space then skipSpaces m n (s + 1) else s

/-- Skips to the next space or null byte. -/
def skipWord (m : Mem) : Nat → Nat → Nat
  | 0, s => s
  | n + 1, s => if m s = space ∨ m s = 0 then s else skipWord m n (s + 1)

/-- The next token and the string after it: `none` at the end of the string. -/
def strtokR (m : Mem) (s : Nat) : Option (Nat × Mem × Nat) :=
  let token := skipSpaces m pgSize s
  if m token = 0 then none
  else
    let stop := skipWord m pgSize token
    if m stop = 0 then some (token, m, stop)
    else some (token, Function.update m stop 0, stop + 1)

/-- Pushes a user pointer to each token; `n` bounds the number of tokens.
mirrors userprog/process.c:580-588 -/
def pushArgs (upage : Nat) : Nat → Mem → Nat → Nat → Nat → Option (Mem × Nat × Nat)
  | 0, m, ofs, _, argc => some (m, ofs, argc)
  | n + 1, m, ofs, save, argc =>
    match strtokR m save with
    | none => some (m, ofs, argc)
    | some (karg, m', save') =>
      match push m' ofs (wordBytes (upage + karg)) with
      | none => none
      | some q => pushArgs upage n q.mem q.ofs save' (argc + 1)

/-- Reverses the `argc` words at offset `argv`.
mirrors userprog/process.c:522-531 -/
def reverse : Nat → Nat → Mem → Mem
  | argc + 2, argv, m =>
    let a := m.word argv
    let b := m.word (argv + (argc + 1) * 4)
    reverse argc (argv + 4) ((m.put argv (wordBytes b)).put (argv + (argc + 1) * 4) (wordBytes a))
  | _, _, m => m

/-- Three words: `argv`, `argc` and the return address. -/
def pushFrame (upage : Nat) (m : Mem) (ofs argc : Nat) : Option (Mem × Nat) := do
  let a ← push m ofs (wordBytes (upage + ofs))
  let b ← push a.mem a.ofs (wordBytes argc)
  let c ← push b.mem b.ofs (wordBytes 0)
  return (c.mem, c.ofs)

/-- The page after `init_cmd_line` and the initial stack pointer: `none` when
it returns false. The memory of a failed call is not looked at again.
mirrors userprog/process.c:556-600 -/
def initCmdLine (kpage : Mem) (upage : Nat) (cmdLine : List Byte) : Option (Mem × Nat) := do
  let copy ← push kpage pgSize (cmdLine ++ [0])
  let null ← push copy.mem copy.ofs (wordBytes 0)
  let (m, ofs, argc) ← pushArgs upage pgSize null.mem null.ofs copy.obj 0
  let (m, ofs) ← pushFrame upage (reverse argc ofs m) ofs argc
  return (m, upage + ofs)

end Pintos.Vm
