import Pintos.L2Code.Evict

/-!
# vm/page.c

The supplemental page table of a process: finding, allocating, faulting in,
locking and freeing pages.
-/
namespace Pintos.Vm

open Pintos.Core

/-! ## The process's hash table

Only the process itself reaches its hash table, a page it has just allocated
and a page that has no frame, so allocating a page and entering it into the
table is one action, and so is taking a page out of the table and freeing it.
-/

/-- The element of `es` whose page starts at `a`. -/
def St.findAddr (s : St) (es : List PageId) (a : Nat) : Option PageId :=
  es.find? fun p => (s.pages p).any fun r => r.addr == a

/-- `hash_find (thread_current ()->pages, &p.hash_elem)` for the page at `a`. -/
def hashFind (a : Nat) : K (Option PageId) := .prim .tau fun t _ s =>
  match s.tables t with
  | some ⟨true, es⟩ => .ok (s.findAddr es a) s
  | _ => .panic .kernelFault

/-- The members that `page_allocate` sets (vm/page.c:210-223). -/
def Page.fresh (t : Tid) (vaddr : Nat) (readOnly : Bool) : Page :=
  ⟨pgRoundDown vaddr, readOnly, t, none, none, !readOnly, none, 0, 0⟩

/-- The allocator returns memory that is not in use, or fails. When the
address is taken, the new page is freed again.
mirrors vm/page.c:203-233 -/
def pageAllocate (vaddr : Nat) (readOnly : Bool) : K (Option PageId) := .prim .allocPage fun t e s =>
  match e, s.tables t with
  | none, _ => .ok none s
  | some p, some ⟨true, es⟩ =>
    if (s.pages p).isSome then .block
    else if (s.findAddr es (pgRoundDown vaddr)).isSome then .ok none s
    else .ok (some p)
      ((s.setPage p (some (.fresh t vaddr readOnly))).setTable t (some ⟨true, p :: es⟩))
  | some _, _ => .panic .kernelFault

/-- `hash_delete (thread_current ()->pages, &p->hash_elem); free (p);` -/
def deletePage (p : PageId) : K Unit := .prim (.freePage p) fun t _ s =>
  match s.pages p, s.tables t with
  | none, _ => .panic .freed
  | some r, some ⟨true, es⟩ =>
    .ok () ((s.setPage p none).setTable t
      (some ⟨true, (s.findAddr es r.addr).elim es es.erase⟩))
  | some _, _ => .panic .kernelFault

/-! ## Finding a page -/

/-- mirrors vm/page.c:39-62 -/
def pageForAddr (address : Nat) : K (Option PageId) := do
  if address < physBase then
    match ← hashFind (pgRoundDown address) with
    | some p => pure (some p)
    | none => do
      if physBase - stackMax < address then
        let esp ← rd fun t s => (s.procs t).userEsp
        if u32 (esp + 2 ^ 32 - 32) < address then pageAllocate (pgRoundDown address) false
        else pure none
      else pure none
  else pure none

/-! ## Paging in -/

/-- The data of page `p` is copied into its frame `f`.
mirrors vm/page.c:75-96 -/
def fillFrame (p : PageId) (f : FrameId) : K Unit := do
  let r ← readPage p
  match r.sector, r.file with
  | some _, _ => swapIn p
  | none, some g => do
    let n ← fileReadAt p g f r.fileBytes r.fileOffset
    modRam f fun m o => if n ≤ o ∧ o < pgSize then 0 else m o
  | none, none => modRam f fun m o => if o < pgSize then 0 else m o

/-- mirrors vm/page.c:66-98 -/
def doPageIn (p : PageId) : K Bool := do
  let f? ← frameAllocAndLock p
  setPageFrame p f?
  match f? with
  | none => pure false
  | some f => do
    fillFrame p f
    pure true

/-- The end of `page_in`: the page has a locked frame.
mirrors vm/page.c:122-132 -/
def installFrame (p : PageId) : K Bool := do
  let r ← readPage p
  match r.frame with
  | none => fail .kernelFault
  | some f => do
    assertHeld (.frame f)
    let success ← pagedirSetPage p r.addr f (!r.readOnly)
    frameUnlock f
    pure success

/-- mirrors vm/page.c:102-132 -/
def pageIn (faultAddr : Nat) : K Bool := do
  if ← rd fun t s => (s.tables t).isNone then pure false
  else
    match ← pageForAddr faultAddr with
    | none => pure false
    | some p => do
      frameLock p
      let r ← readPage p
      match r.frame with
      | some _ => installFrame p
      | none => do
        if ← doPageIn p then installFrame p else pure false

/-! ## Locking -/

/-- The end of `page_lock`: the page has no frame.
mirrors vm/page.c:278-281 -/
def lockInFrame (p : PageId) : K Bool := do
  if ← doPageIn p then
    let r ← readPage p
    match r.frame with
    | none => fail .kernelFault
    | some f => pagedirSetPage p r.addr f (!r.readOnly)
  else pure false

/-- mirrors vm/page.c:270-284 -/
def pageLock (addr : Nat) (willWrite : Bool) : K Bool := do
  match ← pageForAddr addr with
  | none => pure false
  | some p => do
    let r ← readPage p
    if r.readOnly && willWrite then pure false
    else
      frameLock p
      let r ← readPage p
      match r.frame with
      | none => lockInFrame p
      | some _ => pure true

/-- mirrors vm/page.c:287-293 -/
def pageUnlock (addr : Nat) : K Unit := do
  match ← pageForAddr addr with
  | none => fail .assertion
  | some p => do
    let r ← readPage p
    match r.frame with
    | none => fail .kernelFault
    | some f => frameUnlock f

/-! ## Freeing -/

/-- `if (p->frame) frame_free (p->frame);` -/
def dropFrame : Option FrameId → K Unit
  | none => pure ()
  | some f => frameFree f

/-- `free (p)` for a page that `hash_clear` has popped off its bucket. -/
def freePopped (p : PageId) : K Unit := .prim (.freePage p) fun t _ s =>
  match s.pages p, s.tables t with
  | none, _ => .panic .freed
  | some _, some ⟨true, es⟩ => .ok () ((s.setPage p none).setTable t (some ⟨true, es.erase p⟩))
  | some _, _ => .panic .kernelFault

/-- mirrors vm/page.c:17-25 -/
def destroyPage (p : PageId) : K Unit := do
  frameLock p
  let r ← readPage p
  dropFrame r.frame
  freePopped p

/-- The next element to be popped (`hash_clear`, lib/kernel/hash.c:51-72). The
order of the buckets is left to the environment. -/
def nextPage : K (Option PageId) := .prim .tau fun t e s =>
  match s.tables t, e with
  | some ⟨true, []⟩, _ => .ok none s
  | some ⟨true, es⟩, some p => if p ∈ es then .ok (some p) s else .block
  | some ⟨true, _⟩, none => .block
  | _, _ => .panic .kernelFault

/-- `hash_destroy (h, destroy_page)` with `n` elements left. -/
def destroyPages : Nat → K Unit
  | 0 => pure ()
  | n + 1 => do
    match ← nextPage with
    | none => pure ()
    | some p => do
      destroyPage p
      destroyPages n

/-- mirrors vm/page.c:28-34 -/
def pageExit : K Unit := do
  match ← rd fun t s => s.tables t with
  | none => pure ()
  | some h => do
    assert h.buckets
    destroyPages h.elems.length

/-- The frame of a page that is being deallocated.
mirrors vm/page.c:243-249 -/
def releaseFrame (p : PageId) : K Unit := do
  let r ← readPage p
  match r.frame with
  | none => pure ()
  | some f => do
    doIf (r.file.isSome && !r.priv) (do let _ ← pageOut p)
    frameFree f

/-- mirrors vm/page.c:237-252 -/
def pageDeallocate (vaddr : Nat) : K Unit := do
  match ← pageForAddr vaddr with
  | none => fail .assertion
  | some p => do
    frameLock p
    releaseFrame p
    deletePage p

end Pintos.Vm
