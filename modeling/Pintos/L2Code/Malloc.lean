import Pintos.L2Code.Palloc

/-!
# The kernel heap of threads/malloc.c

Memory is bytes, so that a copy that runs over the end of a block shows in
what lies behind it. An arena is a page with a header of three words; the free
list of a descriptor is a list of block addresses, its links are not kept in
memory. The page allocator is not run: each call brings the answer `grant` the
page allocator will give, and an answer that is not a page address or overlaps
pages in use counts as a failure.

Calls do not overlap in time (each holds the lock of its descriptor); sizes
are 32-bit, and sums and products wrap as in the source.
-/
namespace Pintos.Malloc

open Pintos.Core Pintos.Vm
open Pintos.Palloc (pagesOf)

inductive Panic
  | assertion
  | pointer       -- a word that is used as a pointer and is none
  deriving DecidableEq

/-- mirrors threads/malloc.c:38-44 -/
structure Desc where
  blockSize : Nat
  blocksPerArena : Nat
  deriving DecidableEq

/-- mirrors threads/malloc.c:47-55 -/
def arenaMagic : Nat := 0x9a548eed

def arenaSize : Nat := 12

/-- Addition and subtraction in 32 bits. -/
def add32 (x y : Nat) : Nat := (x + y) % 2 ^ 32

def sub32 (x y : Nat) : Nat := (x + 2 ^ 32 - y) % 2 ^ 32

/-- mirrors threads/malloc.c:76-84; the first argument counts
the entries left in `descs` -/
def initDescs : Nat → Nat → List Desc
  | 0, _ => []
  | n + 1, blockSize =>
    if blockSize < pgSize / 2 then
      ⟨blockSize, (pgSize - arenaSize) / blockSize⟩ :: initDescs n (blockSize * 2)
    else []

def descs : List Desc := initDescs 10 16

/-- `freeList i` is the free list of `descs[i]`, `pages` the pages the heap
has taken from the page allocator and not given back. -/
structure St where
  mem : Nat → UInt8
  freeList : Nat → List Nat
  pages : Finset Nat

def St.setList (s : St) (k : Nat) (l : List Nat) : St := { s with freeList := Function.update s.freeList k l }

def St.word (s : St) (a : Nat) : Nat := wordAt s.mem a

abbrev M := Code St Panic

def require (c : Prop) [Decidable c] : M Unit := if c then pure () else Code.fail .assertion

def getWord (a : Nat) : M Nat := do
  let s ← Code.get
  pure (s.word a)

def setWord (a x : Nat) : M Unit := Code.modify fun s => { s with mem := putWord s.mem a x }

def memset (dst : Nat) (value : UInt8) (size : Nat) : M Unit :=
  Code.modify fun s => { s with mem := patch s.mem dst size fun _ => value }

def memcpy (dst src size : Nat) : M Unit :=
  Code.modify fun s => { s with mem := patch s.mem dst size fun i => s.mem (src + i) }

/-! ## Pages -/

/-- mirrors threads/palloc.c:70-101 -/
def pallocGetMultiple (grant : Option Nat) (pageCnt : Nat) : M (Option Nat) := do
  if pageCnt = 0 then pure none
  else
    match grant with
    | none => pure none
    | some a => do
      let s ← Code.get
      if a ≠ 0 ∧ pgOfs a = 0 ∧ Disjoint (pagesOf a pageCnt) s.pages then
        Code.modify fun s => { s with pages := s.pages ∪ pagesOf a pageCnt }
        pure (some a)
      else pure none

/-- mirrors threads/palloc.c:117-142 -/
def pallocFreeMultiple (a pageCnt : Nat) : M Unit := do
  let s ← Code.get
  if pagesOf a pageCnt ⊆ s.pages then
    memset a 0xcc (pgSize * pageCnt)
    Code.modify fun s => { s with pages := s.pages \ pagesOf a pageCnt }
  else Code.fail .assertion

/-! ## Arenas -/

/-- `a->desc`: the word is zero, or one more than the index in `descs`. -/
def arenaDesc (a : Nat) : M (Option (Desc × Nat)) := do
  let v ← getWord (a + 4)
  if v = 0 then pure none
  else
    match descs[v - 1]? with
    | some d => pure (some (d, v - 1))
    | none => Code.fail .pointer

/-- The assertions on the arena `a` of a block with page offset `ofs`.
mirrors threads/malloc.c:272-281 -/
def checkArena (a ofs : Nat) : M Nat := do
  require (a ≠ 0)
  let magic ← getWord a
  require (magic = arenaMagic)
  match ← arenaDesc a with
  | some (d, _) => require (sub32 ofs arenaSize % d.blockSize = 0)
  | none => require (ofs = arenaSize)
  pure a

/-- mirrors threads/malloc.c:267-282 -/
def blockToArena (b : Nat) : M Nat := checkArena (pgRoundDown b) (pgOfs b)

/-- mirrors threads/malloc.c:285-294 -/
def arenaToBlock (a idx : Nat) : M Nat := do
  require (a ≠ 0)
  let magic ← getWord a
  require (magic = arenaMagic)
  match ← arenaDesc a with
  | some (d, _) => do
    require (idx < d.blocksPerArena)
    pure (a + arenaSize + idx * d.blockSize)
  | none => Code.fail .pointer

/-- mirrors threads/malloc.c:141-145 -/
def addBlocks (k a : Nat) : List Nat → M Unit
  | [] => pure ()
  | idx :: rest => do
    let b ← arenaToBlock a idx
    Code.modify fun s => s.setList k (s.freeList k ++ [b])
    addBlocks k a rest

/-- `list_remove` of a block that is not on the list follows wild links.
mirrors threads/malloc.c:247-251 -/
def removeBlocks (k a : Nat) : List Nat → M Unit
  | [] => pure ()
  | idx :: rest => do
    let b ← arenaToBlock a idx
    let s ← Code.get
    if b ∈ s.freeList k then
      Code.modify fun s => s.setList k ((s.freeList k).erase b)
      removeBlocks k a rest
    else Code.fail .pointer

/-! ## malloc -/

/-- `DIV_ROUND_UP (size + sizeof *a, PGSIZE)` in 32 bits.
mirrors threads/malloc.c:109 -/
def pageCntOf (size : Nat) : Nat := ((size + arenaSize) % 2 ^ 32 + (pgSize - 1)) % 2 ^ 32 / pgSize

/-- mirrors threads/malloc.c:102-104 -/
def findDesc (size : Nat) : Option (Desc × Nat) := descs.zipIdx.find? fun p => decide (size ≤ p.1.blockSize)

/-- mirrors threads/malloc.c:109-119 -/
def mallocBig (size : Nat) (grant : Option Nat) : M (Option Nat) := do
  match ← pallocGetMultiple grant (pageCntOf size) with
  | none => pure none
  | some a => do
    setWord a arenaMagic
    setWord (a + 4) 0
    setWord (a + 8) (pageCntOf size)
    pure (some (a + arenaSize))

/-- Fills the free list of `descs[k]`, which is `d`.
mirrors threads/malloc.c:127-145 -/
def newArena (d : Desc) (k : Nat) (grant : Option Nat) : M Bool := do
  match ← pallocGetMultiple grant 1 with
  | none => pure false
  | some a => do
    setWord a arenaMagic
    setWord (a + 4) (k + 1)
    setWord (a + 8) d.blocksPerArena
    addBlocks k a (List.range d.blocksPerArena)
    pure true

/-- If the free list is empty, creates a new arena.
mirrors threads/malloc.c:124-146 -/
def refill (d : Desc) (k : Nat) (grant : Option Nat) : M Bool := do
  let s ← Code.get
  if s.freeList k = [] then newArena d k grant else pure true

/-- mirrors threads/malloc.c:149-153 -/
def takeBlock (k : Nat) : M Nat := do
  let s ← Code.get
  match s.freeList k with
  | [] => Code.fail .assertion
  | b :: rest => do
    Code.modify fun s => s.setList k rest
    let a ← blockToArena b
    let cnt ← getWord (a + 8)
    setWord (a + 8) (sub32 cnt 1)
    pure b

/-- mirrors threads/malloc.c:89-154 -/
def malloc (size : Nat) (grant : Option Nat) : M (Option Nat) := do
  if size = 0 then pure none
  else
    match findDesc size with
    | none => mallocBig size grant
    | some (d, k) => do
      let ready ← refill d k grant
      if ready then do
        let b ← takeBlock k
        pure (some b)
      else pure none

/-- mirrors threads/malloc.c:158-175 -/
def calloc (a b : Nat) (grant : Option Nat) : M (Option Nat) := do
  let size := a * b % 2 ^ 32
  if size < a ∨ size < b then pure none
  else
    match ← malloc size grant with
    | none => pure none
    | some p => do
      memset p 0 size
      pure (some p)

/-! ## free and realloc -/

/-- mirrors threads/malloc.c:229-256 -/
def freeBlock (d : Desc) (k a b : Nat) : M Unit := do
  memset b 0xcc d.blockSize
  Code.modify fun s => s.setList k (b :: s.freeList k)
  let cnt ← getWord (a + 8)
  setWord (a + 8) (add32 cnt 1)
  if d.blocksPerArena ≤ add32 cnt 1 then
    require (add32 cnt 1 = d.blocksPerArena)
    removeBlocks k a (List.range d.blocksPerArena)
    pallocFreeMultiple a 1
  else pure ()

/-- mirrors threads/malloc.c:218-264 -/
def free (p : Option Nat) : M Unit :=
  match p with
  | none => pure ()
  | some b => do
    let a ← blockToArena b
    match ← arenaDesc a with
    | some (d, k) => freeBlock d k a b
    | none => do
      let cnt ← getWord (a + 8)
      pallocFreeMultiple a cnt

/-- mirrors threads/malloc.c:178-186 -/
def blockSize (block : Nat) : M Nat := do
  let a ← blockToArena block
  match ← arenaDesc a with
  | some (d, _) => pure d.blockSize
  | none => do
    let cnt ← getWord (a + 8)
    pure (sub32 (pgSize * cnt) (pgOfs block))

/-- mirrors threads/malloc.c:194-214 -/
def realloc (oldBlock : Option Nat) (newSize : Nat) (grant : Option Nat) : M (Option Nat) := do
  if newSize = 0 then do
    free oldBlock
    pure none
  else
    let newBlock ← malloc newSize grant
    match oldBlock, newBlock with
    | some old, some new => do
      let oldSize ← blockSize old
      memcpy new old (min newSize oldSize)
      free (some old)
      pure newBlock
    | _, _ => pure newBlock

end Pintos.Malloc
