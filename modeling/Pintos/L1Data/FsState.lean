import Pintos.Core.Bytes
import Pintos.Core.Code

/-!
# The data of the file system

The block device of the file system, the on-disk inode and directory entry
(filesys/inode.c:14-21, filesys/directory.c:17-22), the in-memory inodes and
open files (filesys/inode.c:31-40, filesys/file.c:7-12), and the free map
(filesys/free-map.c:8-9, lib/kernel/bitmap.c).

The file system runs under one lock and is modelled as sequential code: a
function of the state that returns a value or panics (`M`). The state holds
the outcomes of the next calls to `malloc`, so a function sees allocations
fail; when the list is empty they succeed. Objects on the heap are numbered
in the order they are allocated. A sector is a function from offsets to bytes
of which the first 512 count.
-/
namespace Pintos.Fs

open Pintos.Core

abbrev Byte := UInt8
abbrev Block := Nat → Byte

/-- `BLOCK_SECTOR_SIZE`. -/
def sectorSize : Nat := 512
/-- `FREE_MAP_SECTOR`. -/
def freeMapSector : Nat := 0
/-- `ROOT_DIR_SECTOR`. -/
def rootDirSector : Nat := 1
/-- `NAME_MAX`. -/
def nameMax : Nat := 14
/-- `sizeof (struct dir_entry)`. -/
def entrySize : Nat := 20
/-- Devices of a gigabyte or more are ignored.
mirrors devices/ide.c:297-303 -/
def maxSectors : Nat := 1024 * 1024 * 1024 / sectorSize
/-- `INODE_MAGIC`. -/
def inodeMagic : Nat := 0x494e4f44

inductive Panic where
  /-- `ASSERT (length >= 0)` in `inode_create`. -/
  | length
  /-- `ASSERT (new_pos >= 0)` in `file_seek`. -/
  | seek
  /-- `check_sector`. -/
  | pastEnd
  /-- `ASSERT (bitmap_all (free_map, sector, cnt))` in `free_map_release`. -/
  | release
  /-- The assertions of `inode_deny_write` and `inode_allow_write`. -/
  | deny
  /-- A `PANIC` while the file system is formatted or opened. -/
  | boot
  /-- A null pointer or an object that has been freed is used. -/
  | pointer
  /-- A transfer at a negative offset, which leaves the sector buffer or the
  sectors of the file. No caller asks for one. -/
  | negative
  deriving DecidableEq

/-! ## On disk -/

/-- The members of `struct inode_disk` that are read back. -/
@[ext] structure DiskInode where
  start : Nat
  length : Nat
  deriving DecidableEq

/-- `struct inode_disk` as `inode_create` writes it. -/
def DiskInode.block (d : DiskInode) : Block := fun o =>
  if o < 4 then byteAt d.start o
  else if o < 8 then byteAt d.length (o - 4)
  else if o < 12 then byteAt inodeMagic (o - 8)
  else 0

/-- The inode in a sector. -/
def readInode (b : Block) : DiskInode := ⟨wordAt b 0, wordAt b 4⟩

/-- `DIV_ROUND_UP (size, BLOCK_SECTOR_SIZE)` in 32-bit signed arithmetic, as a
`size_t`.
mirrors filesys/inode.c:25-29 -/
def bytesToSectors (size : Nat) : Nat :=
  if size + (sectorSize - 1) < 2 ^ 31 then (size + (sectorSize - 1)) / sectorSize
  else 2 ^ 32 - (2 ^ 32 - (size + (sectorSize - 1))) / sectorSize

def DiskInode.sectors (d : DiskInode) : Nat := bytesToSectors d.length

/-- A directory entry in `entrySize` bytes: the sector, `name` and `in_use`. -/
structure Entry where
  inodeSector : Nat
  name : List Byte
  inUse : Bool
  deriving DecidableEq

/-- The bytes before the first null byte. -/
def cString (bs : List Byte) : List Byte := bs.takeWhile (· ≠ 0)

def readEntry (b : Nat → Byte) : Entry :=
  ⟨wordAt b 0, cString ((List.range (nameMax + 1)).map fun i => b (4 + i)), b 19 ≠ 0⟩

/-! ## In memory -/

/-- mirrors filesys/inode.c:31-40 -/
structure Inode where
  sector : Nat
  openCnt : Nat
  removed : Bool
  denyWriteCnt : Nat
  data : DiskInode
  deriving DecidableEq

/-- mirrors filesys/file.c:7-12 -/
structure File where
  inode : Nat
  pos : Nat
  denyWrite : Bool
  deriving DecidableEq

/-- The file system. `freeMap` are the bits of the bitmap, of which the first
`devSize` count. `mem` are the outcomes of the next allocations. -/
structure St where
  devSize : Nat
  disk : Nat → Block
  freeMap : Nat → Bool
  freeMapFile : Option Nat
  inodes : Nat → Option Inode
  openInodes : List Nat
  files : Nat → Option File
  brk : Nat
  mem : List Bool

namespace St

@[simps -fullyApplied] def setInode (s : St) (p : Nat) (i : Option Inode) : St :=
  { s with inodes := Function.update s.inodes p i }

@[simps -fullyApplied] def setFile (s : St) (g : Nat) (f : Option File) : St :=
  { s with files := Function.update s.files g f }

@[simps -fullyApplied] def setDisk (s : St) (d : Nat → Block) : St := { s with disk := d }

@[simps -fullyApplied] def setFreeMap (s : St) (b : Nat → Bool) : St := { s with freeMap := b }

@[simps -fullyApplied] def setOpen (s : St) (l : List Nat) : St := { s with openInodes := l }

@[simps -fullyApplied] def setBrk (s : St) (n : Nat) : St := { s with brk := n }

@[simps -fullyApplied] def setFreeMapFile (s : St) (g : Option Nat) : St := { s with freeMapFile := g }

@[simps -fullyApplied] def setMem (s : St) (m : List Bool) : St := { s with mem := m }

end St

/-! ## Code -/

/-- A function of the file system. -/
abbrev M := Code St Panic

def panic {α : Type} (p : Panic) : M α := Code.fail p

def get : M St := Code.get

def modify (f : St → St) : M Unit := Code.modify f

/-- The outcome of the next allocation. -/
def malloc : M Bool := fun s =>
  match s.mem with
  | [] => .ok (true, s)
  | b :: bs => .ok (b, s.setMem bs)

/-- The address of a new object. -/
def newPtr : M Nat := fun s => .ok (s.brk, s.setBrk (s.brk + 1))

/-- The `struct inode` at `p`. -/
def inodeAt (p : Nat) : M Inode := fun s =>
  match s.inodes p with
  | none => .error .pointer
  | some i => .ok (i, s)

/-- The `struct file` at `g`. -/
def fileAt (g : Nat) : M File := fun s =>
  match s.files g with
  | none => .error .pointer
  | some f => .ok (f, s)

/-! ## Device -/

/-- mirrors devices/block.c:116-126 -/
def blockRead (sec : Nat) : M Block := fun s =>
  if sec < s.devSize then .ok (s.disk sec, s) else .error .pastEnd

/-- The disk with the first 512 bytes of `b` in sector `sec`. -/
def putSector (disk : Nat → Block) (sec : Nat) (b : Block) : Nat → Block :=
  Function.update disk sec fun o => if o < sectorSize then b o else disk sec o

/-- mirrors devices/block.c:128-141 -/
def blockWrite (sec : Nat) (b : Block) : M Unit := fun s =>
  if sec < s.devSize then .ok ((), s.setDisk (putSector s.disk sec b)) else .error .pastEnd

end Pintos.Fs
