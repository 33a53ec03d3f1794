import Pintos.L2Code.Page

/-!
# userprog/syscall.c: descriptors and memory mappings, and the end of a process

A descriptor list, a mapping list and the `struct mapping`s on it belong to
one process; reading or changing them is one action. A function of the source
that may call `thread_exit` returns `none` when it did.

`sys_munmap` hands the mapping's handle, an `int`, to `unmap`, which takes a
pointer. `unmapHandle` is what `unmap` then does first: it reads the members
of a `struct mapping` at the address `h`, in user space. Either nothing is
mapped there and the kernel faults, or user memory is taken for the object.
-/
namespace Pintos.Vm

open Pintos.Core

/-- Changes the running process's own `struct thread`. -/
def modProc (g : Proc → Proc) : K Unit := .prim .tau fun t _ s =>
  .ok () (s.setProc t (g (s.procs t)))

/-! ## Descriptors -/

/-- mirrors userprog/syscall.c:281-298 -/
def lookupFd (handle : Int) : K (Option FileDescriptor) := rd fun t s =>
  (s.procs t).fds.find? fun fd => fd.handle = handle

/-- `filesys_open (name)` and the new descriptor; -1 when an allocation fails
or there is no such file.
mirrors userprog/syscall.c:251-275 -/
def openFd (name : List Byte) : K Int := .prim .tau fun t e s =>
  match s.dir name, e with
  | some i, some g =>
    if (s.files g).isNone then
      let h := (s.procs t).nextHandle
      .ok h ((openFile s i g).setProc t
        { s.procs t with nextHandle := h + 1, fds := ⟨g, h⟩ :: (s.procs t).fds })
    else .block
  | _, _ => .ok (-1) s

def sysOpen (name : List Byte) : K Int := do
  lockAcquire .fs
  let h ← openFd name
  lockRelease .fs
  pure h

/-- `file_close (fd->file)` and the removal of `fd`. -/
def closeFd (fd : FileDescriptor) : K Unit := .prim .tau fun t _ s =>
  match s.files fd.file with
  | none => .panic .freed
  | some F =>
    match closeFile s fd.file F with
    | none => .panic .assertion
    | some s' => .ok () (s'.setProc t { s.procs t with
        fds := (s.procs t).fds.erase fd })

def closeLocked (fd : FileDescriptor) : K Unit := do
  lockAcquire .fs
  closeFd fd
  lockRelease .fs

/-! ## Mappings -/

def readMap (m : Nat) : K Mapping := .prim .tau fun t _ s =>
  match (s.procs t).maps m with
  | none => .panic .freed
  | some r => .ok r s

/-- Allocates, changes or frees the `struct mapping` at `m`. -/
def Proc.setMap (P : Proc) (m : Nat) (r : Option Mapping) : Proc :=
  { P with maps := Function.update P.maps m r }

def modMap (m : Nat) (g : Mapping → Mapping) : K Unit := .prim .tau fun t _ s =>
  match (s.procs t).maps m with
  | none => .panic .freed
  | some r => .ok () (s.setProc t ((s.procs t).setMap m (some (g r))))

/-- mirrors userprog/syscall.c:485-501 -/
def lookupMapping (handle : Int) : K (Option Nat) := rd fun t s =>
  (s.procs t).mappings.find? fun m => ((s.procs t).maps m).any fun r => r.handle = handle

/-- `file_write_at (m->file, m->base + PGSIZE * i, PGSIZE * m->page_cnt, PGSIZE * i)`. -/
def writeBack (r : Mapping) (i : Nat) : K Unit :=
  match r.file with
  | none => fail .nullFile
  | some g => do
    let _ ← fileWriteUser g (u32 (r.base + pgSize * i)) (offT (pgSize * r.pageCnt)) (pgSize * i)

/-- The first loop of `unmap`: page `i`, with `n` pages left. -/
def writeLoop (r : Mapping) : Nat → Nat → K Unit
  | 0, _ => pure ()
  | n + 1, i => do
    let dirt ← pagedirIsDirty id (u32 (r.base + i * pgSize))
    doIf dirt (writeBack r i)
    writeLoop r n (i + 1)

/-- The second loop of `unmap`. -/
def deallocLoop (r : Mapping) : Nat → Nat → K Unit
  | 0, _ => pure ()
  | n + 1, i => do
    pageDeallocate (u32 (r.base + pgSize * i))
    deallocLoop r n (i + 1)

/-- mirrors userprog/syscall.c:505-524 -/
def unmap (m : Nat) : K Unit := do
  modProc fun P => { P with mappings := P.mappings.erase m }
  let r ← readMap m
  writeLoop r r.pageCnt 0
  deallocLoop r r.pageCnt 0

def unmapAll : List Nat → K Unit
  | [] => pure ()
  | m :: ms => do
    unmap m
    unmapAll ms

def closeAll : List FileDescriptor → K Unit
  | [] => pure ()
  | fd :: fds => do
    closeLocked fd
    closeAll fds

/-- mirrors userprog/syscall.c:586-608 -/
def syscallExit : K Unit := do
  let fds ← rd fun t s => (s.procs t).fds
  closeAll fds
  let ms ← rd fun t s => (s.procs t).mappings
  unmapAll ms

/-! ## The end of a process -/

/-- `file_close (cur->bin_file)`. -/
def closeBinFile : K Unit := .prim .tau fun t _ s =>
  match (s.procs t).binFile with
  | none => .ok () s
  | some g =>
    match s.files g with
    | none => .panic .freed
    | some F =>
      match closeFile s g F with
      | none => .panic .assertion
      | some s' => .ok () (s'.setProc t { s.procs t with binFile := none })

/-- `cur->pagedir = NULL` and `pagedir_destroy`. -/
def pagedirDestroy : K Unit := .prim .tau fun t _ s => .ok () (s.setPagedir t none)

/-- mirrors userprog/process.c:164-213 -/
def processExit : K Unit := do
  modProc fun P => { P with status := .exiting }
  pageExit
  closeBinFile
  pagedirDestroy

/-- mirrors threads/thread.c:288-307 -/
def threadExit : K Unit := do
  syscallExit
  processExit
  modProc fun P => { P with status := .dead }

/-! ## System calls -/

/-- mirrors userprog/syscall.c:460-470 -/
def sysClose (handle : Int) : K Unit := do
  match ← lookupFd handle with
  | none => threadExit
  | some fd => closeLocked fd

/-- `malloc (sizeof *m)`. -/
def mallocMap : K (Option Nat) := .prim .tau fun t e s =>
  match e with
  | none => .ok none s
  | some m =>
    if ((s.procs t).maps m).isNone then
      .ok (some m) (s.setProc t ((s.procs t).setMap m (some ⟨0, none, 0, 0⟩)))
    else .block

/-- `m->handle = thread_current ()->next_handle++`. -/
def nextHandle : K Int := .prim .tau fun t _ s =>
  .ok (s.procs t).nextHandle (s.setProc t { s.procs t with nextHandle := (s.procs t).nextHandle + 1 })

/-- `m->file = file_reopen (g)`; the new file.
mirrors filesys/file.c:36-40 -/
def fileReopen (m : Nat) (g : FileId) : K (Option FileId) := .prim .tau fun t e s =>
  match s.files g, (s.procs t).maps m with
  | some F, some r =>
    match e with
    | none => .ok none s
    | some g' =>
      if (s.files g').isNone then
        .ok (some g') ((openFile s F.inode g').setProc t
          ((s.procs t).setMap m (some { r with file := some g' })))
      else .block
  | _, _ => .panic .freed

/-- `length = file_length (m->file)` for a mapping at `addr`. -/
def mapLength (addr : Nat) (g : FileId) : K Nat := .prim (.mapRange addr g) fun _ _ s =>
  match s.files g with
  | none => .panic .freed
  | some F => .ok (s.inodes F.inode).length s

/-- The members of a page that is mapped to file `g`.
mirrors userprog/syscall.c:564-567 -/
def setMapPage (p : PageId) (g : FileId) (offset bytes : Nat) : K Unit :=
  modPage (.setFile p) p fun r =>
    { r with priv := false, file := some g, fileOffset := offset, fileBytes := bytes }

/-- The loop of `sys_mmap`; false when a page could not be allocated. `n`
bounds the number of iterations, which is at most `length`.
mirrors userprog/syscall.c:556-571 -/
def mapLoop (m addr : Nat) (g : FileId) : Nat → Nat → Nat → K Bool
  | 0, _, _ => pure true
  | n + 1, offset, length => do
    if 0 < length then
      match ← pageAllocate (u32 (addr + offset)) false with
      | none => pure false
      | some p => do
        let bytes := if pgSize ≤ length then pgSize else length
        setMapPage p g offset bytes
        modMap m fun r => { r with pageCnt := r.pageCnt + 1 }
        mapLoop m addr g n (offset + bytes) (length - bytes)
    else pure true

/-- `sys_mmap` once the file has been reopened as `g`.
mirrors userprog/syscall.c:548-573 -/
def mapFile (m : Nat) (h : Int) (addr : Nat) (g : FileId) : K Int := do
  modMap m fun r => { r with base := addr, pageCnt := 0 }
  modProc fun P => { P with mappings := m :: P.mappings }
  lockAcquire .fs
  let length ← mapLength addr g
  lockRelease .fs
  if ← mapLoop m addr g length 0 length then pure h
  else
    unmap m
    pure (-1)

/-- `sys_mmap` once the descriptor has been found.
mirrors userprog/syscall.c:531-547 -/
def mmapFd (fd : FileDescriptor) (addr : Nat) : K Int := do
  match ← mallocMap with
  | none => pure (-1)
  | some m => do
    if addr = 0 ∨ pgOfs addr ≠ 0 then pure (-1)
    else
      let h ← nextHandle
      modMap m fun r => { r with handle := h }
      lockAcquire .fs
      let g? ← fileReopen m fd.file
      lockRelease .fs
      match g? with
      | none => do
        modProc fun P => P.setMap m none
        pure (-1)
      | some g => mapFile m h addr g

/-- mirrors userprog/syscall.c:527-573 -/
def sysMmap (handle : Int) (addr : Nat) : K (Option Int) := do
  match ← lookupFd handle with
  | none => do
    threadExit
    pure none
  | some fd => do
    let h ← mmapFd fd addr
    pure (some h)

/-- The first thing `unmap ((struct mapping *) h)` does is to read the list
element at address `h`. -/
def unmapHandle (h : Int) : K Unit := .prim .tau fun t _ s =>
  match kernelByte s t (h % 2 ^ 32).toNat with
  | none => .panic .kernelFault
  | some _ => .panic .wild

/-- mirrors userprog/syscall.c:577-583 -/
def sysMunmap (mapping : Int) : K (Option Int) := do
  match ← lookupMapping mapping with
  | none => do
    threadExit
    pure none
  | some _ => do
    unmapHandle mapping
    pure (some 0)

end Pintos.Vm
