import Pintos.L1Data.State
import Pintos.L2Code.FsInode

/-!
# The page allocator of threads/palloc.c

Two pools of pages, each with a bitmap of the pages in use that lies at the
start of the memory of the pool. Addresses are kernel virtual addresses and
natural numbers: start.S finds at most 64 MB of RAM, so none wraps. What the
pages hold is left out (`PAL_ZERO` and the 0xcc fill of freed pages).
-/
namespace Pintos.Palloc

open Pintos.Core Pintos.Vm

/-- How a call stops the kernel. -/
inductive Panic
  | noBitmap        -- "Not enough memory in pool for bitmap."
  | outOfPages      -- "palloc_get: out of pages"
  | assertion
  | notReached
  deriving DecidableEq

/-- `usedMap` is the address of the bitmap, `bitCnt` and `bits` its contents.
mirrors threads/palloc.c:28-34 -/
structure Pool where
  usedMap : Nat
  bitCnt : Nat
  bits : Nat → Bool
  base : Nat

structure St where
  kernelPool : Pool
  userPool : Pool

/-- The flags of a request.
mirrors threads/palloc.h:7-12 -/
structure Flags where
  assert : Bool
  user : Bool

def St.pool (s : St) (user : Bool) : Pool := if user then s.userPool else s.kernelPool

def St.setBits (s : St) (user : Bool) (b : Nat → Bool) : St :=
  if user then { s with userPool := { s.userPool with bits := b } }
  else { s with kernelPool := { s.kernelPool with bits := b } }

abbrev M := Code St Panic

/-! ## Initialization -/

/-- `init_ram_pages`, for the memory above 1 MB that the BIOS reports, in kB.
mirrors threads/start.S:41-48 -/
def initRamPages (extKb : Nat) : Nat := min (extKb + 1024) 0x10000 / 4

/-- mirrors threads/vaddr.h:71-77 -/
def ptov (paddr : Nat) : Nat := paddr + physBase

def divRoundUp (x step : Nat) : Nat := (x + step - 1) / step

/-- A `struct bitmap` takes eight bytes.
mirrors lib/kernel/bitmap.c:114-118 -/
def bitmapBufSize (bitCnt : Nat) : Nat := 8 + Fs.byteCnt bitCnt

/-- mirrors threads/palloc.c:153-170 -/
def initPool (base pageCnt : Nat) : Except Panic Pool :=
  let bmPages := divRoundUp (bitmapBufSize pageCnt) pgSize
  if bmPages > pageCnt then .error .noBitmap
  else
    -- `bitmap_create_in_buf` asserts that the bitmap fits
    if bitmapBufSize (pageCnt - bmPages) ≤ bmPages * pgSize then
      .ok ⟨base, pageCnt - bmPages, fun _ => false, base + bmPages * pgSize⟩
    else .error .assertion

/-- Gives half of the free pages to the kernel, half to the user.
mirrors threads/palloc.c:52-61 -/
def initPools (freeStart freePages userPageLimit : Nat) : Except Panic St := do
  let userPages := if freePages / 2 > userPageLimit then userPageLimit else freePages / 2
  let kernelPages := freePages - userPages
  let kernelPool ← initPool freeStart kernelPages
  let userPool ← initPool (freeStart + kernelPages * pgSize) userPages
  pure ⟨kernelPool, userPool⟩

def freeStart : Nat := ptov (1024 * 1024)

def freeEnd (extKb : Nat) : Nat := ptov (initRamPages extKb * pgSize)

/-- mirrors threads/palloc.c:45-62 -/
def pallocInit (extKb userPageLimit : Nat) : Except Panic St :=
  initPools freeStart ((freeEnd extKb - freeStart) / pgSize) userPageLimit

/-! ## Pages -/

/-- The addresses of `n` pages from `a` on. -/
def pagesOf (a n : Nat) : Finset Nat := (Finset.range n).image fun i => a + pgSize * i

theorem mem_pagesOf {a n p : Nat} : p ∈ pagesOf a n ↔ ∃ i < n, a + pgSize * i = p := by
  simp [pagesOf]

/-- A null pointer is `none`.
mirrors threads/palloc.c:70-101 -/
def pallocGetMultiple (flags : Flags) (pageCnt : Nat) : M (Option Nat) := do
  if pageCnt = 0 then pure none
  else
    let s ← Code.get
    let pool := s.pool flags.user
    -- `bitmap_scan_and_flip`
    match Fs.bitmapScan pool.bits pool.bitCnt pageCnt with
    | some idx =>
      Code.modify fun s => s.setBits flags.user (Fs.bitmapSetMultiple pool.bits idx pageCnt true)
      pure (some (pool.base + pgSize * idx))
    | none => if flags.assert then Code.fail .outOfPages else pure none

/-- mirrors threads/palloc.c:110-114 -/
def pallocGetPage (flags : Flags) : M (Option Nat) := pallocGetMultiple flags 1

/-- mirrors threads/vaddr.h:29-31 -/
def pgNo (a : Nat) : Nat := a / pgSize

/-- mirrors threads/palloc.c:174-182 -/
def pageFromPool (pool : Pool) (page : Nat) : Bool :=
  pgNo pool.base ≤ pgNo page && pgNo page < pgNo pool.base + pool.bitCnt

/-- Frees the pages in one of the pools.
mirrors threads/palloc.c:134-141 -/
def freeInPool (user : Bool) (pages pageCnt : Nat) : M Unit := do
  let s ← Code.get
  let pool := s.pool user
  let idx := pgNo pages - pgNo pool.base
  -- `bitmap_all`, with the assertions on its range
  if idx + pageCnt ≤ pool.bitCnt ∧ Fs.bitmapContains pool.bits idx pageCnt false = false then
    Code.modify fun s => s.setBits user (Fs.bitmapSetMultiple pool.bits idx pageCnt false)
  else Code.fail .assertion

/-- mirrors threads/palloc.c:117-142 -/
def pallocFreeMultiple (pages : Option Nat) (pageCnt : Nat) : M Unit :=
  match pages with
  | none => pure ()
  | some pages => do
    if pgOfs pages = 0 then
      if pageCnt = 0 then pure ()
      else
        let s ← Code.get
        if pageFromPool s.kernelPool pages then freeInPool false pages pageCnt
        else if pageFromPool s.userPool pages then freeInPool true pages pageCnt
        else Code.fail .notReached
    else Code.fail .assertion

end Pintos.Palloc
