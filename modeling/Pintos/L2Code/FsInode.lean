import Pintos.L1Data.FsState

/-!
# filesys/inode.c, filesys/file.c and filesys/free-map.c

Loops are recursions on a bound of the number of iterations. Offsets and
sizes are `off_t`, that is `int`; a loop over bytes runs on natural numbers
once the sign has been looked at.
-/
namespace Pintos.Fs

open Pintos.Core

/-- `n` bytes of a buffer from offset `o` on. -/
def slice (b : Nat → Byte) (o n : Nat) : List Byte := (List.range n).map fun i => b (o + i)

/-! ## Reading and writing an inode -/

/-- How many bytes of `size` at `ofs` lie in the file and in the sector of `ofs`. -/
def chunkSize (d : DiskInode) (size ofs : Nat) : Nat :=
  min size (min (d.length - ofs) (sectorSize - ofs % sectorSize))

/-- `if (bounce == NULL) bounce = malloc (BLOCK_SECTOR_SIZE);` -/
def getBounce (bounce : Bool) : M Bool := if bounce then pure true else malloc

/-- The loop of `inode_read_at`: the bytes read from `ofs` on. `n` bounds the
number of iterations.
mirrors filesys/inode.c:207-246 -/
def readLoop (d : DiskInode) : Nat → Bool → Nat → Nat → M (List Byte)
  | 0, _, _, _ => pure []
  | n + 1, bounce, size, ofs => do
    let chunk := chunkSize d size ofs
    if chunk = 0 then pure []
    else if ofs % sectorSize = 0 ∧ chunk = sectorSize then do
      let b ← blockRead (d.start + ofs / sectorSize)
      let rest ← readLoop d n bounce (size - chunk) (ofs + chunk)
      pure (slice b 0 chunk ++ rest)
    else do
      let ok ← getBounce bounce
      if ok then do
        let b ← blockRead (d.start + ofs / sectorSize)
        let rest ← readLoop d n true (size - chunk) (ofs + chunk)
        pure (slice b (ofs % sectorSize) chunk ++ rest)
      else pure []

/-- The bytes read. The model stops at a negative offset, with which the code
would leave its buffer or the sectors of the file.
mirrors filesys/inode.c:200-250 -/
def inodeReadAt (p : Nat) (size ofs : Int) : M (List Byte) := do
  let i ← inodeAt p
  if 0 < size ∧ ofs < 0 then panic .negative
  else readLoop i.data size.toNat false size.toNat ofs.toNat

/-- A sector buffer with the first `n` bytes of `bs` at offset `o`. -/
def Block.put (b : Block) (o n : Nat) (bs : List Byte) : Block := fun i =>
  if o ≤ i ∧ i < o + n then bs.getD (i - o) 0 else b i

/-- The loop of `inode_write_at`: the number of bytes of `bs` written at `ofs`.
mirrors filesys/inode.c:268-314 -/
def writeLoop (d : DiskInode) : Nat → Bool → List Byte → Nat → M Nat
  | 0, _, _, _ => pure 0
  | n + 1, bounce, bs, ofs => do
    let chunk := chunkSize d bs.length ofs
    let sec := d.start + ofs / sectorSize
    if chunk = 0 then pure 0
    else if ofs % sectorSize = 0 ∧ chunk = sectorSize then do
      blockWrite sec (Block.put (fun _ => 0) 0 chunk bs)
      let k ← writeLoop d n bounce (bs.drop chunk) (ofs + chunk)
      pure (chunk + k)
    else do
      let ok ← getBounce bounce
      if ok then do
        let b ← if 0 < ofs % sectorSize ∨ chunk < sectorSize - ofs % sectorSize then blockRead sec
          else pure fun _ => 0
        blockWrite sec (Block.put b (ofs % sectorSize) chunk bs)
        let k ← writeLoop d n true (bs.drop chunk) (ofs + chunk)
        pure (chunk + k)
      else pure 0

/-- mirrors filesys/inode.c:257-318 -/
def inodeWriteAt (p : Nat) (bs : List Byte) (ofs : Int) : M Nat := do
  let i ← inodeAt p
  if i.denyWriteCnt ≠ 0 then pure 0
  else if bs ≠ [] ∧ ofs < 0 then panic .negative
  else writeLoop i.data bs.length false bs ofs.toNat

/-- mirrors filesys/file.c:109-114 -/
def fileWriteAt (g : Nat) (bs : List Byte) (ofs : Int) : M Nat := do
  let f ← fileAt g
  inodeWriteAt f.inode bs ofs

/-- mirrors filesys/file.c:81-85 -/
def fileReadAt (g : Nat) (size ofs : Int) : M (List Byte) := do
  let f ← fileAt g
  inodeReadAt f.inode size ofs

/-! ## The free map -/

/-- mirrors lib/kernel/bitmap.c:251-265 -/
def bitmapContains (b : Nat → Bool) (start cnt : Nat) (value : Bool) : Bool :=
  (List.range cnt).any fun i => b (start + i) == value

/-- mirrors lib/kernel/bitmap.c:296-310, for `start = 0` and
`value = false` -/
def bitmapScan (b : Nat → Bool) (bitCnt cnt : Nat) : Option Nat :=
  if cnt ≤ bitCnt then (List.range (bitCnt - cnt + 1)).find? fun i => !bitmapContains b i cnt true
  else none

/-- mirrors lib/kernel/bitmap.c:218-229 -/
def bitmapSetMultiple (b : Nat → Bool) (start cnt : Nat) (value : Bool) : Nat → Bool := fun i =>
  if start ≤ i ∧ i < start + cnt then value else b i

/-- `byte_cnt`: four bytes for each 32 bits.
mirrors lib/kernel/bitmap.c:50-62 -/
def byteCnt (bitCnt : Nat) : Nat := 4 * ((bitCnt + 31) / 32)

/-- The words of the bitmap as bytes. -/
def bitmapBytes (b : Nat → Bool) (bitCnt : Nat) : List Byte :=
  (List.range (byteCnt bitCnt)).map fun i => packByte fun j => b (8 * i + j)

/-- mirrors lib/kernel/bitmap.c:357-361 -/
def bitmapWrite (g : Option Nat) : M Bool := do
  match g with
  | none => panic .pointer
  | some g => do
    let s ← get
    let n ← fileWriteAt g (bitmapBytes s.freeMap s.devSize) 0
    pure (n = byteCnt s.devSize)

/-- The bits of a bitmap read from bytes, with `last_mask` applied. -/
def bitmapOfBytes (bs : List Byte) (bitCnt : Nat) : Nat → Bool := fun i =>
  i < bitCnt && bitOf (bs.getD (i / 8) 0) (i % 8)

/-- `bitmap_read (free_map, free_map_file)`.
mirrors lib/kernel/bitmap.c:341-353 -/
def bitmapRead (g : Nat) : M Bool := do
  let s ← get
  let bs ← fileReadAt g (byteCnt s.devSize) 0
  modify fun s => s.setFreeMap (bitmapOfBytes bs s.devSize)
  pure (bs.length = byteCnt s.devSize)

/-- The first of `cnt` new sectors.
mirrors filesys/free-map.c:27-41 -/
def freeMapAllocate (cnt : Nat) : M (Option Nat) := do
  let s ← get
  match bitmapScan s.freeMap s.devSize cnt with
  | none => pure none
  | some sec => do
    modify fun s => s.setFreeMap (bitmapSetMultiple s.freeMap sec cnt true)
    match s.freeMapFile with
    | none => pure (some sec)
    | some g => do
      let ok ← bitmapWrite (some g)
      if ok then pure (some sec)
      else do
        modify fun s => s.setFreeMap (bitmapSetMultiple s.freeMap sec cnt false)
        pure none

/-- mirrors filesys/free-map.c:44-50 -/
def freeMapRelease (sec cnt : Nat) : M Unit := do
  let s ← get
  if sec + cnt ≤ s.devSize ∧ bitmapContains s.freeMap sec cnt false = false then do
    modify fun s => s.setFreeMap (bitmapSetMultiple s.freeMap sec cnt false)
    let _ ← bitmapWrite s.freeMapFile
    pure ()
  else panic .release

/-! ## Inodes -/

/-- Writes zeros to `n` sectors from `sec` on. -/
def zeroLoop : Nat → Nat → M Unit
  | 0, _ => pure ()
  | n + 1, sec => do
    blockWrite sec fun _ => 0
    zeroLoop n (sec + 1)

/-- mirrors filesys/inode.c:72-106 -/
def inodeCreate (sector : Nat) (length : Int) : M Bool := do
  if length < 0 then panic .length
  else
    let ok ← malloc
    if ok then do
      let sectors := bytesToSectors length.toNat
      match ← freeMapAllocate sectors with
      | none => pure false
      | some start => do
        blockWrite sector (DiskInode.block ⟨start, length.toNat⟩)
        zeroLoop sectors start
        pure true
    else pure false

/-- The open inode for `sector`. -/
def St.findOpen (s : St) (sector : Nat) : Option Nat :=
  s.openInodes.find? fun p => (s.inodes p).any fun i => i.sector == sector

/-- mirrors filesys/inode.c:145-151 -/
def inodeReopen (p : Nat) : M Unit := do
  let i ← inodeAt p
  modify fun s => s.setInode p (some { i with openCnt := i.openCnt + 1 })

/-- mirrors filesys/inode.c:111-142 -/
def inodeOpen (sector : Nat) : M (Option Nat) := do
  let s ← get
  match s.findOpen sector with
  | some p => do
    inodeReopen p
    pure (some p)
  | none => do
    let ok ← malloc
    if ok then do
      let p ← newPtr
      let b ← blockRead sector
      modify fun s => (s.setInode p (some ⟨sector, 1, false, 0, readInode b⟩)).setOpen (p :: s.openInodes)
      pure (some p)
    else pure none

/-- The last reference to inode `i` at `p` is dropped. -/
def inodeFree (p : Nat) (i : Inode) : M Unit := do
  modify fun s => s.setOpen (s.openInodes.erase p)
  if i.removed then do
    freeMapRelease i.sector 1
    freeMapRelease i.data.start i.data.sectors
    modify fun s => s.setInode p none
  else modify fun s => s.setInode p none

/-- mirrors filesys/inode.c:163-187 -/
def inodeClose (p : Option Nat) : M Unit := do
  match p with
  | none => pure ()
  | some p => do
    let i ← inodeAt p
    modify fun s => s.setInode p (some { i with openCnt := i.openCnt - 1 })
    if i.openCnt = 1 then inodeFree p i else pure ()

/-- mirrors filesys/inode.c:190-195 -/
def inodeRemove (p : Nat) : M Unit := do
  let i ← inodeAt p
  modify fun s => s.setInode p (some { i with removed := true })

/-- mirrors filesys/inode.c:322-327 -/
def inodeDenyWrite (p : Nat) : M Unit := do
  let i ← inodeAt p
  modify fun s => s.setInode p (some { i with denyWriteCnt := i.denyWriteCnt + 1 })
  if i.denyWriteCnt + 1 ≤ i.openCnt then pure () else panic .deny

/-- mirrors filesys/inode.c:332-338 -/
def inodeAllowWrite (p : Nat) : M Unit := do
  let i ← inodeAt p
  if 0 < i.denyWriteCnt ∧ i.denyWriteCnt ≤ i.openCnt then
    modify fun s => s.setInode p (some { i with denyWriteCnt := i.denyWriteCnt - 1 })
  else panic .deny

/-! ## Files -/

/-- mirrors filesys/file.c:17-35 -/
def fileOpen (inode : Option Nat) : M (Option Nat) := do
  let ok ← malloc
  match inode, ok with
  | some p, true => do
    let g ← newPtr
    modify fun s => s.setFile g (some ⟨p, 0, false⟩)
    pure (some g)
  | _, _ => do
    inodeClose inode
    pure none

/-- mirrors filesys/file.c:39-43 -/
def fileReopen (g : Nat) : M (Option Nat) := do
  let f ← fileAt g
  inodeReopen f.inode
  fileOpen (some f.inode)

/-- mirrors filesys/file.c:118-127 -/
def fileDenyWrite (g : Nat) : M Unit := do
  let f ← fileAt g
  if f.denyWrite then pure ()
  else do
    modify fun s => s.setFile g (some { f with denyWrite := true })
    inodeDenyWrite f.inode

/-- mirrors filesys/file.c:132-141 -/
def fileAllowWrite (g : Nat) : M Unit := do
  let f ← fileAt g
  if f.denyWrite then do
    modify fun s => s.setFile g (some { f with denyWrite := false })
    inodeAllowWrite f.inode
  else pure ()

/-- mirrors filesys/file.c:46-55 -/
def fileClose (g : Nat) : M Unit := do
  let f ← fileAt g
  fileAllowWrite g
  inodeClose (some f.inode)
  modify fun s => s.setFile g none

/-- mirrors filesys/file.c:69-74 -/
def fileRead (g : Nat) (size : Int) : M (List Byte) := do
  let f ← fileAt g
  let bs ← inodeReadAt f.inode size f.pos
  modify fun s => s.setFile g (some { f with pos := f.pos + bs.length })
  pure bs

/-- mirrors filesys/file.c:95-100 -/
def fileWrite (g : Nat) (bs : List Byte) : M Nat := do
  let f ← fileAt g
  let n ← inodeWriteAt f.inode bs f.pos
  modify fun s => s.setFile g (some { f with pos := f.pos + n })
  pure n

/-- mirrors filesys/file.c:144-149 -/
def fileLength (g : Nat) : M Nat := do
  let f ← fileAt g
  let i ← inodeAt f.inode
  pure i.data.length

/-- mirrors filesys/file.c:153-158 -/
def fileSeek (g : Nat) (newPos : Int) : M Unit := do
  let f ← fileAt g
  if newPos < 0 then panic .seek
  else modify fun s => s.setFile g (some { f with pos := newPos.toNat })

end Pintos.Fs
