import Pintos.L2Code.Prim

/-!
# Swap, eviction and the frame table

vm/swap.c, `page_accessed_recently` and `page_out` of vm/page.c, and
vm/frame.c. Loops are recursions on the number of iterations left.
-/
namespace Pintos.Vm

open Pintos.Core

/-! ## vm/swap.c -/

/-- `bitmap_scan (swap_bitmap, k, 1, false)` with `n` bits left to test.
mirrors lib/kernel/bitmap.c:300-315 -/
def bitmapScan : Nat → Nat → K (Option Nat)
  | 0, _ => pure none
  | n + 1, k => do
    if ← bitmapTest k then bitmapScan n (k + 1) else pure (some k)

/-- mirrors lib/kernel/bitmap.c:324-331 -/
def bitmapScanAndFlip : K (Option Nat) := do
  let n ← rd fun _ s => s.swapSlots
  match ← bitmapScan n 0 with
  | none => pure none
  | some k => do
    bitmapMark k
    pure (some k)

/-- Sector `i`, with `n` sectors left; `sec` is `p->sector`. -/
def swapWriteLoop (p : PageId) (f : FrameId) (sec : Nat) : Nat → Nat → K Unit
  | 0, _ => pure ()
  | n + 1, i => do
    blockWrite p f (sec + i) i
    swapWriteLoop p f sec n (i + 1)

def swapReadLoop (f : FrameId) (sec : Nat) : Nat → Nat → K Unit
  | 0, _ => pure ()
  | n + 1, i => do
    blockRead f (sec + i) i
    swapReadLoop f sec n (i + 1)

/-- mirrors vm/swap.c:42-56 -/
def swapIn (p : PageId) : K Unit := do
  let r ← readPage p
  match r.frame, r.sector with
  | some f, some sec => do
    assertHeld (.frame f)
    swapReadLoop f sec pageSectors 0
    bitmapReset p (sec / pageSectors)
    modPage (.clearSector p) p fun r => { r with sector := none }
  | _, _ => fail .assertion

/-- mirrors vm/swap.c:59-87 -/
def swapOut (p : PageId) : K Bool := do
  let r ← readPage p
  match r.frame with
  | none => fail .assertion
  | some f => do
    assertHeld (.frame f)
    lockAcquire .swap
    let slot ← bitmapScanAndFlip
    lockRelease .swap
    match slot with
    | none => do
      -- slot == BITMAP_ERROR
      .prim (.swapFull p) fun _ _ s => .ok () s
      pure false
    | some k => do
      modPage (.setSector p k) p fun r => { r with sector := some (k * pageSectors) }
      swapWriteLoop p f (k * pageSectors) pageSectors 0
      modPage .tau p fun r => { r with priv := false }
      modPage .tau p fun r => { r with file := none }
      modPage .tau p fun r => { r with fileOffset := 0 }
      modPage .tau p fun r => { r with fileBytes := 0 }
      pure true

/-! ## vm/page.c: eviction -/

/-- mirrors vm/page.c:186-198 -/
def pageAccessedRecently (p : PageId) : K Bool := do
  let r ← readPage p
  match r.frame with
  | none => fail .assertion
  | some f => do
    assertHeld (.frame f)
    let wasAccessed ← pagedirIsAccessed r.thread r.addr
    doIf wasAccessed (pagedirSetAccessed r.thread r.addr false)
    pure wasAccessed

/-- The `if (dirty) ... else if (!dirty)` of `page_out`: the value of `ok`
after it.
mirrors vm/page.c:160-173 -/
def pageOutDirty (p : PageId) (f : FrameId) (dirty : Bool) : K Bool := do
  if dirty then
    let r ← readPage p
    if r.priv then swapOut p
    else
      match r.file with
      | none => fail .nullFile
      | some g => do
        let n ← fileWriteAt g f r.fileBytes r.fileOffset
        pure (n ≠ 0)
  else pure true

/-- `ok` of the first `swap_out` is overwritten by `pageOutDirty`.
mirrors vm/page.c:137-181 -/
def pageOut (p : PageId) : K Bool := do
  let r ← readPage p
  match r.frame with
  | none => fail .assertion
  | some f => do
    assertHeld (.frame f)
    pagedirClearPage p r.thread r.addr
    let dirty ← pagedirIsDirty (fun _ => r.thread) r.addr
    let r' ← readPage p
    doIf r'.file.isNone (do let _ ← swapOut p)
    let ok ← pageOutDirty p f dirty
    doIf ok (setPageFrame p none)
    pure ok

/-! ## vm/frame.c -/

/-- The first loop: frame `f`, with `n` frames left.
mirrors vm/frame.c:48-60 -/
def findFree (page : PageId) : Nat → FrameId → K (Option FrameId)
  | 0, _ => pure none
  | n + 1, f => do
    if ← lockTryAcquire (.frame f) then
      match ← framePage f with
      | none => do
        setFramePage .tau f (some page)
        lockRelease .scan
        pure (some f)
      | some _ => do
        lockRelease (.frame f)
        findFree page n (f + 1)
    else findFree page n (f + 1)

/-- The second loop, with `n` iterations left.
mirrors vm/frame.c:63-100 -/
def findVictim (page : PageId) : Nat → K (Option FrameId)
  | 0 => do
    lockRelease .scan
    pure none
  | n + 1 => do
    let f ← advanceHand
    if ← lockTryAcquire (.frame f) then
      match ← framePage f with
      | none => do
        setFramePage .tau f (some page)
        lockRelease .scan
        pure (some f)
      | some q => do
        if ← pageAccessedRecently q then
          lockRelease (.frame f)
          findVictim page n
        else
          lockRelease .scan
          if ← pageOut q then
            setFramePage .tau f (some page)
            pure (some f)
          else
            lockRelease (.frame f)
            pure none
    else findVictim page n

/-- mirrors vm/frame.c:40-101 -/
def tryFrameAllocAndLock (page : PageId) : K (Option FrameId) := do
  lockAcquire .scan
  let n ← rd fun _ s => s.frameCnt
  match ← findFree page n 0 with
  | some f => pure (some f)
  | none => findVictim page (n * 2)

/-- `n` tries left. -/
def frameAllocTry (page : PageId) : Nat → K (Option FrameId)
  | 0 => pure none
  | n + 1 => do
    match ← tryFrameAllocAndLock page with
    | some f => do
      assertHeld (.frame f)
      pure (some f)
    | none => do
      timerMsleep
      frameAllocTry page n

/-- mirrors vm/frame.c:106-123 -/
def frameAllocAndLock (page : PageId) : K (Option FrameId) := frameAllocTry page 3

/-- mirrors vm/frame.c:127-141 -/
def frameLock (p : PageId) : K Unit := do
  let r ← readPage p
  match r.frame with
  | none => pure ()
  | some f => do
    lockAcquire (.frame f)
    let r' ← readPage p
    if r'.frame = some f then pure ()
    else
      lockRelease (.frame f)
      let r'' ← readPage p
      assert (r''.frame = none)

/-- mirrors vm/frame.c:146-153 -/
def frameFree (f : FrameId) : K Unit := do
  assertHeld (.frame f)
  setFramePage (.freeFrame f) f none
  lockRelease (.frame f)

/-- mirrors vm/frame.c:157-162 -/
def frameUnlock (f : FrameId) : K Unit := do
  assertHeld (.frame f)
  lockRelease (.frame f)

end Pintos.Vm
