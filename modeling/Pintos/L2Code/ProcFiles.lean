import Pintos.L2Code.Filesys

/-!
# The open files of processes

The functions of userprog/syscall.c and userprog/process.c that take or drop a
reference to a file, over the file system of `Pintos.L2Code.Filesys`: the
descriptors and mappings of each process, and the executable it runs.

The calls are made one after another, each under `fs_lock`. What they do to
the memory of the process is not part of the state: whether the pages of a
mapping could be allocated and whether an executable loads are arguments of the
call, and so are the bytes that `unmap` writes back.
-/
namespace Pintos.Fs

open Pintos.Core

/-- The files a process refers to: `fd->file` of its descriptors, `m->file` of
its mappings, and `bin_file`. -/
structure Proc where
  alive : Bool
  fds : List Nat
  mappings : List Nat
  binFile : Option Nat
  deriving DecidableEq

def Proc.init : Proc := ⟨false, [], [], none⟩

structure Sys where
  fs : St
  procs : Nat → Proc

namespace Sys

@[simps] def setFs (s : Sys) (f : St) : Sys := { s with fs := f }

@[simps] def setProc (s : Sys) (t : Nat) (p : Proc) : Sys := { s with procs := Function.update s.procs t p }

end Sys

abbrev P := Code Sys Panic

/-- Runs code of the file system. -/
def onFs {α : Type} (c : M α) : P α := fun s =>
  match c s.fs with
  | .ok (a, f) => .ok (a, s.setFs f)
  | .error e => .error e

def getProc (t : Nat) : P Proc := fun s => .ok (s.procs t, s)

def modProc (t : Nat) (h : Proc → Proc) : P Unit := Code.modify fun s => s.setProc t (h (s.procs t))

/-! ## System calls -/

/-- mirrors userprog/syscall.c:252-277 -/
def sysOpen (t : Nat) (name : Name) : P Unit := do
  if ← onFs malloc then
    match ← onFs (filesysOpen name) with
    | some g => modProc t fun p => { p with fds := g :: p.fds }
    | none => pure ()
  else pure ()

/-- `g` is the file of the descriptor.
mirrors userprog/syscall.c:460-470 -/
def sysClose (t g : Nat) : P Unit := do
  onFs (fileClose g)
  modProc t fun p => { p with fds := p.fds.erase g }

/-- mirrors userprog/syscall.c:228-241 -/
def sysRemove (name : Name) : P Unit := do
  let _ ← onFs (filesysRemove name)
  pure ()

/-- What the dirty pages of a mapping hold, each with its offset. -/
abbrev Dirty := List (List Byte × Nat)

def writeBack (g : Nat) : Dirty → M Unit
  | [] => pure ()
  | (bs, ofs) :: rest => do
    let _ ← fileWriteAt g bs ofs
    writeBack g rest

/-- The mapping leaves the list and its dirty pages are written to the file.
The file is not closed.
mirrors userprog/syscall.c:504-524 -/
def unmap (t g : Nat) (dirty : Dirty) : P Unit := do
  modProc t fun p => { p with mappings := p.mappings.erase g }
  onFs (writeBack g dirty)

/-- `g` is the file of the descriptor, `aligned` says that the address is page
aligned and not null, and `fits` that each `page_allocate` succeeds. The pages
that an early stop has made are not dirty.
mirrors userprog/syscall.c:527-573 -/
def sysMmap (t g : Nat) (aligned fits : Bool) : P Unit := do
  let m ← onFs malloc
  if m && aligned then
    match ← onFs (fileReopen g) with
    | some h =>
      modProc t fun p => { p with mappings := h :: p.mappings }
      if fits then pure () else unmap t h []
    | none => pure ()
  else pure ()

/-- `unmap` is called with the handle in place of the mapping: the kernel faults.
mirrors userprog/syscall.c:576-583 -/
def sysMunmap : P Unit := Code.fail .pointer

/-! ## Start and end of a process -/

/-- `memory` says that the page directory and the page table can be allocated,
`valid` that the executable is valid and the rest of its load succeeds.
mirrors userprog/process.c:304-430 -/
def load (t : Nat) (name : Name) (memory valid : Bool) : P Bool := do
  if memory then
    match ← onFs (filesysOpen name) with
    | some g =>
      modProc t fun p => { p with binFile := some g }
      onFs (fileDenyWrite g)
      pure valid
    | none => pure false
  else pure false

def closeAll : List Nat → M Unit
  | [] => pure ()
  | g :: gs => do
    fileClose g
    closeAll gs

def unmapAll (t : Nat) (dirty : Nat → Dirty) : List Nat → P Unit
  | [] => pure ()
  | g :: gs => do
    unmap t g (dirty g)
    unmapAll t dirty gs

/-- mirrors userprog/syscall.c:586-609 -/
def syscallExit (t : Nat) (dirty : Nat → Dirty) : P Unit := do
  let p ← getProc t
  onFs (closeAll p.fds)
  unmapAll t dirty p.mappings

/-- mirrors userprog/process.c:194-195 -/
def processExit (t : Nat) : P Unit := do
  let p ← getProc t
  match p.binFile with
  | some g => onFs (fileClose g)
  | none => pure ()

/-- A process that exits and one that is killed end here.
mirrors threads/thread.c:289-307 -/
def threadExit (t : Nat) (dirty : Nat → Dirty) : P Unit := do
  syscallExit t dirty
  processExit t
  modProc t fun _ => Proc.init

/-- `memory` and `valid` as for `load`.
mirrors userprog/process.c:42-117 -/
def processExecute (t : Nat) (name : Name) (memory valid : Bool) : P Unit := do
  modProc t fun p => { p with alive := true }
  if ← load t name memory valid then pure () else threadExit t fun _ => []

/-! ## Runs -/

inductive Call
  | open (t : Nat) (name : Name)
  | close (t g : Nat)
  | mmap (t g : Nat) (aligned fits : Bool)
  | munmap
  | remove (name : Name)
  | exec (t : Nat) (name : Name) (memory valid : Bool)
  | exit (t : Nat) (dirty : Nat → Dirty)

namespace Call

def code : Call → P Unit
  | .open t name => sysOpen t name
  | .close t g => sysClose t g
  | .mmap t g aligned fits => sysMmap t g aligned fits
  | .munmap => sysMunmap
  | .remove name => sysRemove name
  | .exec t name memory valid => processExecute t name memory valid
  | .exit t dirty => threadExit t dirty

/-- Processes use descriptors of their own, and a thread runs one process. -/
def Valid (s : Sys) : Call → Prop
  | .open t _ => (s.procs t).alive = true
  | .close t g => g ∈ (s.procs t).fds
  | .mmap t g _ _ => g ∈ (s.procs t).fds
  | .munmap => True
  | .remove _ => True
  | .exec t _ _ _ => s.procs t = Proc.init
  | .exit t _ => (s.procs t).alive = true

end Call

end Pintos.Fs
