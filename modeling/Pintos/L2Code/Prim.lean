import Pintos.L1Data.State

/-!
# Atomic actions of the kernel

The accesses to shared memory from which the code is built: one lock
operation, one read or write of a member, one bit of a bitmap, one sector of
the swap device, one page table entry. Operations on memory that only the
running thread can reach (its hash table, its lists, a `struct page` it has
just allocated) are one action each, and so are the operations of the file
system on one file, which the model gives by their effect on the file's
bytes and counters.
-/
namespace Pintos.Vm

open Pintos.Core

/-- Reads the machine. -/
def rd {α : Type} (g : Tid → St → α) : K α := .prim .tau fun t _ s => .ok (g t s) s

def fail {α : Type} (p : Panic) : K α := .prim .tau fun _ _ _ => .panic p

def assert (b : Bool) : K Unit := if b then pure () else fail .assertion

/-- `if (b) c;` -/
def doIf (b : Bool) (c : K Unit) : K Unit := if b then c else pure ()

/-- `timer_msleep`: other threads run. -/
def timerMsleep : K Unit := rd fun _ _ => ()

/-! ## Locks (threads/synch.c:197-271) -/

def lockAcquire (l : Lock) : K Unit := .prim .tau fun t _ s =>
  match s.locks l with
  | none => .ok () (s.setLock l (some t))
  | some u => if u = t then .panic .assertion else .block

def lockTryAcquire (l : Lock) : K Bool := .prim .tau fun t _ s =>
  match s.locks l with
  | none => .ok true (s.setLock l (some t))
  | some u => if u = t then .panic .assertion else .ok false s

def lockRelease (l : Lock) : K Unit := .prim .tau fun t _ s =>
  if s.locks l = some t then .ok () (s.setLock l none) else .panic .assertion

/-- `ASSERT (lock_held_by_current_thread (l))`. -/
def assertHeld (l : Lock) : K Unit := .prim .tau fun t _ s =>
  if s.locks l = some t then .ok () s else .panic .assertion

/-! ## Members of `struct page` and `struct frame` -/

def readPage (p : PageId) : K Page := .prim .tau fun _ _ s =>
  match s.pages p with
  | none => .panic .freed
  | some r => .ok r s

def modPage (l : Lbl) (p : PageId) (g : Page → Page) : K Unit := .prim l fun _ _ s =>
  match s.pages p with
  | none => .panic .freed
  | some r => .ok () (s.setPage p (some (g r)))

/-- `p->frame = f`. -/
def setPageFrame (p : PageId) (f : Option FrameId) : K Unit :=
  modPage .tau p fun r => { r with frame := f }

def framePage (f : FrameId) : K (Option PageId) := rd fun _ s => s.frames f

/-- `f->page = p`. -/
def setFramePage (l : Lbl) (f : FrameId) (p : Option PageId) : K Unit := .prim l fun _ _ s =>
  .ok () (s.setFrame f p)

/-- Writes the memory at `f->base`. -/
def modRam (f : FrameId) (g : (Nat → Byte) → Nat → Byte) : K Unit :=
  .prim .tau fun _ _ s => .ok () (s.setRam f (g (s.ram f)))

/-- `f = &frames[hand]; if (++hand >= frame_cnt) hand = 0;` under `scan_lock`
(vm/frame.c:66-68). -/
def advanceHand : K FrameId := .prim .tau fun _ _ s =>
  .ok s.hand (s.setHand (if s.frameCnt ≤ s.hand + 1 then 0 else s.hand + 1))

/-! ## Page directories (userprog/pagedir.c) -/

/-- Changes the entry for user page `a` of process `t`. -/
def setPte (s : St) (t : Tid) (a : Nat) (e : Pte) : St :=
  match s.pagedirs t with
  | none => s
  | some pd => s.setPagedir t (some { pd with pte := Function.update pd.pte a e })

/-- mirrors userprog/pagedir.c:132-149, on the page directory
of the page's owner -/
def pagedirClearPage (p : PageId) (t : Tid) (a : Nat) : K Unit := .prim (.clearPage p) fun _ _ s =>
  match s.pagedirs t with
  | none => .panic .assertion
  | some _ =>
    if pgOfs a = 0 ∧ a < physBase then .ok () (setPte s t a { s.pte t a with present := false })
    else .panic .assertion

/-- mirrors userprog/pagedir.c:155-160. A kernel address has
its entry in the kernel's page tables. -/
def pagedirIsDirty (owner : Tid → Tid) (a : Nat) : K Bool := .prim .tau fun t _ s =>
  match s.pagedirs (owner t) with
  | none => .panic .assertion
  | some _ => .ok (if a < physBase then (s.pte (owner t) a).dirty else s.kdirty a) s

/-- mirrors userprog/pagedir.c:184-189 -/
def pagedirIsAccessed (t : Tid) (a : Nat) : K Bool := .prim .tau fun _ _ s =>
  match s.pagedirs t with
  | none => .panic .assertion
  | some _ => .ok (s.pte t a).accessed s

/-- mirrors userprog/pagedir.c:193-206 -/
def pagedirSetAccessed (t : Tid) (a : Nat) (b : Bool) : K Unit := .prim .tau fun _ _ s =>
  match s.pagedirs t with
  | none => .panic .assertion
  | some _ => .ok () (setPte s t a { s.pte t a with accessed := b })

/-- Installs frame `f` for page `p` at user page `a`. The page table for `a`
is allocated when it is missing.
mirrors userprog/pagedir.c:90-113 -/
def pagedirSetPage (p : PageId) (a : Nat) (f : FrameId) (writable : Bool) : K Bool :=
  .prim (.setPage p) fun t e s =>
    match s.pagedirs t with
    | none => .panic .assertion
    | some pd =>
      if pgOfs a ≠ 0 ∨ physBase ≤ a then .panic .assertion
      else if pd.table (a / 2 ^ 22) = false ∧ e = none then .ok false s
      else if (pd.pte a).present then .panic .ptePresent
      else .ok true (s.setPagedir t (some ⟨Function.update pd.table (a / 2 ^ 22) true,
        Function.update pd.pte a (.user f writable)⟩))

/-! ## Swap device and bitmap (vm/swap.c, lib/kernel/bitmap.c) -/

def bitmapTest (k : Nat) : K Bool := rd fun _ s => s.swapUsed k

def bitmapMark (k : Nat) : K Unit := .prim (.swapMark k) fun _ _ s => .ok () (s.setUsed k true)

def bitmapReset (p : PageId) (k : Nat) : K Unit := .prim (.swapReset p) fun _ _ s =>
  .ok () (s.setUsed k false)

/-- `block_write (swap_device, sec, base + i * BLOCK_SECTOR_SIZE)` for the
swap slot of page `p`; `check_sector` panics past the end of the device. -/
def blockWrite (p : PageId) (f : FrameId) (sec i : Nat) : K Unit := .prim (.swapWrite p i) fun _ _ s =>
  if sec < s.swapSize then
    .ok () (s.setSector sec fun o => s.ram f (i * blockSectorSize + o))
  else .panic .assertion

/-- The bytes of a frame with sector `i` of it replaced. -/
def putSector (m : Nat → Byte) (i : Nat) (d : Nat → Byte) : Nat → Byte := fun o =>
  if i * blockSectorSize ≤ o ∧ o < (i + 1) * blockSectorSize then d (o - i * blockSectorSize)
  else m o

/-- `block_read (swap_device, sec, base + i * BLOCK_SECTOR_SIZE)`. -/
def blockRead (f : FrameId) (sec i : Nat) : K Unit := .prim .tau fun _ _ s =>
  if sec < s.swapSize then
    .ok () (s.setRam f (putSector (s.ram f) i (s.swapDisk sec)))
  else .panic .assertion

/-! ## Files (filesys/file.c, filesys/inode.c) -/

/-- How many of the `n` bytes at offset `ofs` `inode_read_at` and
`inode_write_at` transfer: a chunk that is not a whole sector goes through a
bounce buffer, and when that cannot be allocated the loop ends before the
chunk (filesys/inode.c:197-313). -/
def transferred (ofs n : Nat) (alloc : Bool) : Nat :=
  if alloc then n
  else if ofs % blockSectorSize = 0 then n / blockSectorSize * blockSectorSize else 0

/-- Bytes from `ofs` on, `size` at most, that lie inside the file. -/
def inFile (n : Inode) (size : Int) (ofs : Nat) : Nat := min size.toNat (n.length - ofs)

/-- Replaces `k` bytes from `ofs` on. -/
def Inode.write (n : Inode) (ofs k : Nat) (src : Nat → Byte) : Inode :=
  { n with data := fun o => if ofs ≤ o ∧ o < ofs + k then src (o - ofs) else n.data o }

/-- `file_read_at (g, f->base, size, ofs)` for page `p`; the number of bytes
read.
mirrors filesys/file.c:81-85 and filesys/inode.c:197-247 -/
def fileReadAt (p : PageId) (g : FileId) (f : FrameId) (size ofs : Nat) : K Nat :=
  .prim (.readFile p) fun _ e s =>
    match s.files g with
    | none => .panic .freed
    | some F =>
      let n := s.inodes F.inode
      let k := transferred ofs (inFile n size ofs) e.isSome
      .ok k (s.setRam f fun o => if o < k then n.data (ofs + o) else s.ram f o)

/-- `file_write_at (g, f->base, size, ofs)`; the number of bytes written.
mirrors filesys/file.c:113-118 and filesys/inode.c:254-313 -/
def fileWriteAt (g : FileId) (f : FrameId) (size ofs : Nat) : K Nat := .prim .tau fun _ e s =>
  match s.files g with
  | none => .panic .freed
  | some F =>
    let n := s.inodes F.inode
    if n.denyWriteCnt ≠ 0 then .ok 0 s
    else
      let k := transferred ofs (inFile n size ofs) e.isSome
      .ok k (s.setInode F.inode (n.write ofs k (s.ram f)))

/-- What the kernel reads at virtual address `a` in the address space of `t`:
`none` is a page fault. -/
def kernelByte (s : St) (t : Tid) (a : Nat) : Option Byte :=
  if a < physBase then
    if (s.pte t (pgRoundDown a)).present then
      some (s.ram (s.pte t (pgRoundDown a)).frame (pgOfs a))
    else none
  else some (s.kmem a)

/-- `file_write_at (g, src, size, ofs)` where `src` is a virtual address of
the running process. That the copy sets accessed bits is left out. -/
def fileWriteUser (g : FileId) (src : Nat) (size : Int) (ofs : Nat) : K Nat := .prim .tau fun t e s =>
  match s.files g with
  | none => .panic .freed
  | some F =>
    let n := s.inodes F.inode
    if n.denyWriteCnt ≠ 0 then .ok 0 s
    else
      let k := transferred ofs (inFile n size ofs) e.isSome
      if (List.range k).all fun o => (kernelByte s t (u32 (src + o))).isSome then
        .ok k (s.setInode F.inode
          (n.write ofs k fun o => (kernelByte s t (u32 (src + o))).getD 0))
      else .panic .kernelFault

/-- mirrors filesys/file.c:135-141 -/
def fileLength (g : FileId) : K Nat := .prim .tau fun _ _ s =>
  match s.files g with
  | none => .panic .freed
  | some F => .ok (s.inodes F.inode).length s

/-- `inode_open` of an inode that is open already, or that is read from disk
(filesys/inode.c:110-154). -/
def Inode.reopen (n : Inode) : Inode :=
  { n with openCnt := n.openCnt + 1, denyWriteCnt := if n.openCnt = 0 then 0 else n.denyWriteCnt }

/-- A new `struct file` for inode `i`. `g` is memory the allocator returned. -/
def openFile (s : St) (i : InodeId) (g : FileId) : St :=
  (s.setFile g (some ⟨i, 0, false⟩)).setInode i (s.inodes i).reopen

/-- `t->bin_file = filesys_open (name)`: fails when there is no such file or
an allocation fails.
mirrors filesys/filesys.c:67-78 -/
def openBinFile (name : List Byte) : K (Option FileId) := .prim .tau fun t e s =>
  match s.dir name, e with
  | some i, some g =>
    if (s.files g).isNone then
      .ok (some g) ((openFile s i g).setProc t { s.procs t with binFile := some g })
    else .block
  | _, _ => .ok none (s.setProc t { s.procs t with binFile := none })

/-- mirrors filesys/file.c:118-127 and filesys/inode.c:322-327 -/
def fileDenyWrite (g : FileId) : K Unit := .prim .tau fun _ _ s =>
  match s.files g with
  | none => .panic .freed
  | some F =>
    let n := s.inodes F.inode
    if F.denyWrite then .ok () s
    else if n.denyWriteCnt + 1 ≤ n.openCnt then
      .ok () ((s.setFile g (some { F with denyWrite := true })).setInode F.inode
        { n with denyWriteCnt := n.denyWriteCnt + 1 })
    else .panic .assertion

/-- `file_close (g)` (filesys/file.c:47-56) with `file_allow_write` and
`inode_close`: `none` is a failed assertion. -/
def closeFile (s : St) (g : FileId) (F : File) : Option St :=
  let n := s.inodes F.inode
  if F.denyWrite then
    if 0 < n.denyWriteCnt ∧ n.denyWriteCnt ≤ n.openCnt then
      some ((s.setFile g none).setInode F.inode
        { n with openCnt := n.openCnt - 1, denyWriteCnt := n.denyWriteCnt - 1 })
    else none
  else some ((s.setFile g none).setInode F.inode { n with openCnt := n.openCnt - 1 })

/-- `file_seek (g, pos)`. -/
def fileSeek (g : FileId) (pos : Nat) : K Unit := .prim .tau fun _ _ s =>
  match s.files g with
  | none => .panic .freed
  | some F => .ok () (s.setFile g (some { F with pos := pos }))

/-- `file_read (g, buffer, size)` into a buffer of the kernel: the bytes read.
mirrors filesys/file.c:69-75 -/
def fileRead (g : FileId) (size : Nat) : K (List Byte) := .prim .tau fun _ e s =>
  match s.files g with
  | none => .panic .freed
  | some F =>
    let n := s.inodes F.inode
    let k := transferred F.pos (inFile n size F.pos) e.isSome
    .ok ((List.range k).map fun o => n.data (F.pos + o))
      (s.setFile g (some { F with pos := F.pos + k }))

end Pintos.Vm
