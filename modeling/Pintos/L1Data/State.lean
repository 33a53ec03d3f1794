import Pintos.Core.Prog

/-!
# The data of the virtual memory system

`struct page` (vm/page.h), `struct frame` (vm/frame.h), the swap device and
its bitmap (vm/swap.c), page directories (userprog/pagedir.c, threads/pte.h),
open files and inodes (filesys/file.c, filesys/inode.c), and the fields of
`struct thread` that these use (threads/thread.h:80-121).

Pointers to heap objects are numbers (`PageId`, `FileId`, addresses of
`struct mapping`), and a heap is a partial function from them: `none` is
memory that is not allocated, so a use after `free` is visible. A frame's
4096 bytes are a function of the offset. `(block_sector_t) -1` and null
pointers are `none`. What one process alone points to (its page directory,
its hash table of pages, its mappings) is indexed by the process.

Not modelled: the parent/child structures (`wait_status`), the console, the
contents of directories beyond the name lookup `dir`.
-/
namespace Pintos.Vm

open Pintos.Core Function

abbrev Tid := Nat
abbrev PageId := Nat
abbrev FrameId := Nat
abbrev FileId := Nat
abbrev InodeId := Nat
abbrev Byte := UInt8

/-! ## Addresses (threads/vaddr.h) -/

def pgSize : Nat := 4096
def physBase : Nat := 0xc0000000
/-- `STACK_MAX` (vm/page.c:13). -/
def stackMax : Nat := 1024 * 1024
def blockSectorSize : Nat := 512
/-- `PAGE_SECTORS` (vm/swap.c:20). -/
def pageSectors : Nat := pgSize / blockSectorSize

/-- Unsigned 32-bit wrap-around. -/
def u32 (x : Nat) : Nat := x % 2 ^ 32

/-- A 32-bit word read as `off_t` (a signed `int`). -/
def offT (x : Nat) : Int := if u32 x < 2 ^ 31 then u32 x else (u32 x : Int) - 2 ^ 32

def pgOfs (a : Nat) : Nat := a % pgSize
def pgRoundDown (a : Nat) : Nat := a - a % pgSize
def roundUp (x step : Nat) : Nat := (x + step - 1) / step * step

/-! ## Records -/

/-- mirrors vm/page.h:9-32. `priv` is the member `private`. -/
structure Page where
  addr : Nat
  readOnly : Bool
  thread : Tid
  frame : Option FrameId
  sector : Option Nat
  priv : Bool
  file : Option FileId
  fileOffset : Nat
  fileBytes : Nat

/-- A page table entry; the address bits are the frame whose `base` they hold. -/
structure Pte where
  present : Bool
  writable : Bool
  dirty : Bool
  accessed : Bool
  frame : FrameId
  deriving DecidableEq

/-- An entry of a page table that was just allocated with `PAL_ZERO`. -/
def Pte.zero : Pte := ⟨false, false, false, false, 0⟩

/-- `pte_create_user` (threads/pte.h:91-93). -/
def Pte.user (f : FrameId) (writable : Bool) : Pte := ⟨true, writable, false, false, f⟩

/-- The user half of a page directory: `table n` says that the `n`-th page
table exists. Entries of a page table that does not exist are zero. -/
structure Pagedir where
  table : Nat → Bool
  pte : Nat → Pte

def Pagedir.empty : Pagedir := ⟨fun _ => false, fun _ => .zero⟩

/-- The hash table of a process's pages (lib/kernel/hash.c), by its elements;
`buckets` is false when `hash_init` could not allocate them. -/
structure PageTable where
  buckets : Bool
  elems : List PageId

/-- The entry for user page `a`; there is none without a page directory. -/
def pteOf (pd : Option Pagedir) (a : Nat) : Pte :=
  match pd with
  | none => .zero
  | some pd => pd.pte a

@[simp] theorem pteOf_none (a : Nat) : pteOf none a = .zero := rfl

@[simp] theorem pteOf_some (pd : Pagedir) (a : Nat) : pteOf (some pd) a = pd.pte a := rfl

def elemsOf (h : Option PageTable) : List PageId :=
  match h with
  | none => []
  | some h => h.elems

/-- mirrors userprog/syscall.c:474-481 -/
structure Mapping where
  handle : Int
  file : Option FileId
  base : Nat
  pageCnt : Nat

/-- mirrors userprog/syscall.c:242-247 -/
structure FileDescriptor where
  file : FileId
  handle : Int
  deriving DecidableEq

/-- mirrors filesys/file.c:7-12 -/
structure File where
  inode : InodeId
  pos : Nat
  denyWrite : Bool

/-- An inode: its length (a non-negative `off_t`) and bytes on disk, and the
two counters of the in-memory `struct inode` (filesys/inode.c:33-41), which
exists while `openCnt` is positive. -/
structure Inode where
  length : Nat
  data : Nat → Byte
  openCnt : Nat
  denyWriteCnt : Nat
  length_lt : length < 2 ^ 31

/-- Where a process is in its life. `exiting` begins with `process_exit`. -/
inductive Status where
  | new | loading | running | exiting | dead
  deriving DecidableEq

/-- The members of `struct thread` that the VM system and the system calls
use, apart from `pagedir` and `pages`. `maps` is the memory of the process's
`struct mapping`s, and `mappings` lists addresses in it. -/
structure Proc where
  status : Status
  binFile : Option FileId
  fds : List FileDescriptor
  mappings : List Nat
  maps : Nat → Option Mapping
  nextHandle : Int
  userEsp : Nat

/-- mirrors threads/thread.c:460-490 (`init_thread`) -/
def Proc.init : Proc := ⟨.new, none, [], [], fun _ => none, 2, 0⟩

inductive Lock where
  | frame (f : FrameId)
  | scan
  | swap
  | fs
  deriving DecidableEq

/-- The machine. `frames f` is the `page` member of a `struct frame`
(vm/frame.h:8-13), `ram f` the memory at its `base`, and `Lock.frame f` its
lock. `pagedirs t` and `tables t` are `t->pagedir` and `t->pages`. `swapSize`
is `block_size (swap_device)`, 0 when there is no device. `kmem` and `kdirty`
are what a kernel virtual address holds and the dirty bit of its page table
entry. -/
structure St where
  frameCnt : Nat
  frames : FrameId → Option PageId
  ram : FrameId → Nat → Byte
  hand : Nat
  locks : Lock → Option Tid
  pages : PageId → Option Page
  pagedirs : Tid → Option Pagedir
  tables : Tid → Option PageTable
  procs : Tid → Proc
  files : FileId → Option File
  inodes : InodeId → Inode
  dir : List Byte → Option InodeId
  swapSize : Nat
  swapUsed : Nat → Bool
  swapDisk : Nat → Nat → Byte
  kmem : Nat → Byte
  kdirty : Nat → Bool

namespace St

@[simps -fullyApplied] def setFrame (s : St) (f : FrameId) (p : Option PageId) : St :=
  { s with frames := update s.frames f p }

@[simps -fullyApplied] def setRam (s : St) (f : FrameId) (m : Nat → Byte) : St :=
  { s with ram := update s.ram f m }

@[simps -fullyApplied] def setLock (s : St) (l : Lock) (h : Option Tid) : St :=
  { s with locks := update s.locks l h }

@[simps -fullyApplied] def setPage (s : St) (p : PageId) (r : Option Page) : St :=
  { s with pages := update s.pages p r }

@[simps -fullyApplied] def setPagedir (s : St) (t : Tid) (pd : Option Pagedir) : St :=
  { s with pagedirs := update s.pagedirs t pd }

@[simps -fullyApplied] def setTable (s : St) (t : Tid) (h : Option PageTable) : St :=
  { s with tables := update s.tables t h }

@[simps -fullyApplied] def setFile (s : St) (g : FileId) (r : Option File) : St :=
  { s with files := update s.files g r }

@[simps -fullyApplied] def setInode (s : St) (i : InodeId) (n : Inode) : St :=
  { s with inodes := update s.inodes i n }

@[simps -fullyApplied] def setProc (s : St) (t : Tid) (P : Proc) : St :=
  { s with procs := update s.procs t P }

@[simps -fullyApplied] def setUsed (s : St) (k : Nat) (b : Bool) : St :=
  { s with swapUsed := update s.swapUsed k b }

@[simps -fullyApplied] def setSector (s : St) (k : Nat) (d : Nat → Byte) : St :=
  { s with swapDisk := update s.swapDisk k d }

@[simps -fullyApplied] def setHand (s : St) (h : Nat) : St := { s with hand := h }

/-- The entry for user page `a` in the page directory of process `t`. -/
abbrev pte (s : St) (t : Tid) (a : Nat) : Pte := pteOf (s.pagedirs t) a

/-- The elements of the page table of process `t`. -/
abbrev table (s : St) (t : Tid) : List PageId := elemsOf (s.tables t)

/-- Number of bits of `swap_bitmap` (`swap_init`, vm/swap.c:23-38). -/
def swapSlots (s : St) : Nat := s.swapSize / pageSectors

end St

/-! ## Panics and labels -/

inductive Panic where
  /-- An `ASSERT` or `PANIC` other than the ones below. -/
  | assertion
  /-- `ASSERT ((*pte & PTE_P) == 0)` in `pagedir_set_page`. -/
  | ptePresent
  /-- `file_write_at` on a null file. -/
  | nullFile
  /-- The kernel touches an address that is not mapped. -/
  | kernelFault
  /-- A heap object is used after it was freed. -/
  | freed
  /-- User memory is taken for a kernel object. -/
  | wild
  deriving DecidableEq

/-- The actions that the auxiliary state, the conditions on runs or the
theorems refer to; `tau` is any other action. -/
inductive Lbl where
  | tau
  | clearPage (p : PageId)
  | setPage (p : PageId)
  | swapMark (k : Nat)
  | swapFull (p : PageId)
  | setSector (p : PageId) (k : Nat)
  | swapWrite (p : PageId) (i : Nat)
  | swapReset (p : PageId)
  | clearSector (p : PageId)
  | freeFrame (f : FrameId)
  | allocPage
  | freePage (p : PageId)
  | setFile (p : PageId)
  | readFile (p : PageId)
  | initCmdLine (p : PageId)
  | load (a : Nat)
  | store (a : Nat) (b : Byte)
  | mapRange (addr : Nat) (g : FileId)
  deriving DecidableEq

/-- Actions over the machine. A choice of the environment is what the kernel
allocator returns: an address, or `none` when it fails. -/
abbrev sig : Sig := ⟨St, Tid, Option Nat, Panic, Lbl⟩

/-- Kernel code. -/
abbrev K := Prog sig

end Pintos.Vm
