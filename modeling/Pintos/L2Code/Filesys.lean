import Pintos.L2Code.FsInode

/-!
# filesys/directory.c and filesys/filesys.c

The root directory is the only directory that calls open. A `struct dir` is
opened and closed within one call and is modelled by the inode it holds. `Op` are the calls that
the rest of the kernel makes, with the handles it has obtained before.
-/
namespace Pintos.Fs

open Pintos.Core

/-- A C string: bytes before the terminating null byte. -/
@[ext] structure Name where
  chars : List Byte
  noNull : (0 : Byte) ∉ chars
  deriving DecidableEq

/-! ## Directory entries -/

/-- The bytes of a `struct dir_entry` in a buffer. -/
def entryOf (bs : List Byte) : Entry := readEntry fun i => bs.getD i 0

/-- `e.in_use = true; strlcpy (e.name, name, sizeof e.name); e.inode_sector =
inode_sector;` on a buffer that holds `e`. -/
def newEntry (e : List Byte) (name : Name) (sector : Nat) : List Byte :=
  (List.range entrySize).map fun o =>
    if o < 4 then byteAt sector o
    else if o < 4 + name.chars.length then name.chars.getD (o - 4) 0
    else if o = 4 + name.chars.length then 0
    else if o = 19 then 1
    else e.getD o 0

/-- `e.in_use = false;` -/
def freeEntry (e : List Byte) : List Byte := e.set 19 0

/-! ## Directories -/

/-- mirrors filesys/directory.c:26-30 -/
def dirCreate (sector : Nat) (entryCnt : Nat) : M Bool := inodeCreate sector (entryCnt * entrySize)

/-- mirrors filesys/directory.c:34-50 -/
def dirOpen (inode : Option Nat) : M (Option Nat) := do
  let ok ← malloc
  match inode, ok with
  | some p, true => pure (some p)
  | _, _ => do
    inodeClose inode
    pure none

/-- mirrors filesys/directory.c:54-58 -/
def dirOpenRoot : M (Option Nat) := do
  let p ← inodeOpen rootDirSector
  dirOpen p

/-- mirrors filesys/directory.c:69-77 -/
def dirClose (dir : Option Nat) : M Unit := inodeClose dir

/-- The loop of `lookup`: the entry as read, and its offset.
mirrors filesys/directory.c:101-111 -/
def lookupLoop (dir : Nat) (name : Name) : Nat → Nat → M (Option (List Byte × Nat))
  | 0, _ => pure none
  | n + 1, ofs => do
    let bs ← inodeReadAt dir entrySize ofs
    if bs.length = entrySize then
      if (entryOf bs).inUse = true ∧ name.chars = (entryOf bs).name then pure (some (bs, ofs))
      else lookupLoop dir name n (ofs + entrySize)
    else pure none

/-- A bound of the number of reads of a loop over directory `dir`. -/
def dirFuel (dir : Nat) : M Nat := do
  let i ← inodeAt dir
  pure (i.data.length / entrySize + 1)

/-- mirrors filesys/directory.c:91-112 -/
def lookup (dir : Nat) (name : Name) : M (Option (List Byte × Nat)) := do
  let n ← dirFuel dir
  lookupLoop dir name n 0

/-- mirrors filesys/directory.c:118-133 -/
def dirLookup (dir : Nat) (name : Name) : M (Option Nat) := do
  match ← lookup dir name with
  | none => pure none
  | some (bs, _) => inodeOpen (entryOf bs).inodeSector

/-- The loop of `dir_add` that looks for a free slot: its offset, and what `e`
holds then. A short read leaves the rest of `e` as it was.
mirrors filesys/directory.c:166-169 -/
def slotLoop (dir : Nat) : Nat → Nat → List Byte → M (Nat × List Byte)
  | 0, ofs, e => pure (ofs, e)
  | n + 1, ofs, e => do
    let bs ← inodeReadAt dir entrySize ofs
    if bs.length = entrySize ∧ (entryOf bs).inUse = true then slotLoop dir n (ofs + entrySize) bs
    else pure (ofs, bs ++ e.drop bs.length)

/-- `e` is what the uninitialised `struct dir_entry` holds.
mirrors filesys/directory.c:141-179 -/
def dirAdd (dir : Nat) (name : Name) (sector : Nat) (e : List Byte) : M Bool := do
  if name.chars = [] ∨ nameMax < name.chars.length then pure false
  else
    match ← lookup dir name with
    | some _ => pure false
    | none => do
      let n ← dirFuel dir
      let (ofs, e) ← slotLoop dir n 0 e
      let k ← inodeWriteAt dir (newEntry e name sector) ofs
      pure (k = entrySize)

/-- The entry `bs` at `ofs` is erased and its inode `p` removed. -/
def dirErase (dir p : Nat) (bs : List Byte) (ofs : Nat) : M Bool := do
  let k ← inodeWriteAt dir (freeEntry bs) ofs
  if k = entrySize then do
    inodeRemove p
    inodeClose (some p)
    pure true
  else do
    inodeClose (some p)
    pure false

/-- mirrors filesys/directory.c:184-216 -/
def dirRemove (dir : Nat) (name : Name) : M Bool := do
  match ← lookup dir name with
  | none => pure false
  | some (bs, ofs) =>
    match ← inodeOpen (entryOf bs).inodeSector with
    | none => pure false
    | some p => dirErase dir p bs ofs

/-! ## The file system -/

/-- The condition of `filesys_create`: whether all steps succeed, and what
`inode_sector` is then.
mirrors filesys/filesys.c:48-53 -/
def createSteps (dir : Option Nat) (name : Name) (initialSize : Int) (e : List Byte) : M (Bool × Nat) := do
  match dir with
  | none => pure (false, 0)
  | some dir =>
    match ← freeMapAllocate 1 with
    | none => pure (false, 0)
    | some sector => do
      let made ← inodeCreate sector initialSize
      if made then do
        let added ← dirAdd dir name sector e
        pure (added, sector)
      else pure (false, sector)

/-- mirrors filesys/filesys.c:54-55 -/
def undoCreate (success : Bool) (sector : Nat) : M Unit :=
  if success = false ∧ sector ≠ 0 then freeMapRelease sector 1 else pure ()

/-- mirrors filesys/filesys.c:45-59 -/
def filesysCreate (name : Name) (initialSize : Int) (e : List Byte) : M Bool := do
  let dir ← dirOpenRoot
  let (success, sector) ← createSteps dir name initialSize e
  undoCreate success sector
  dirClose dir
  pure success

/-- mirrors filesys/filesys.c:66-77 -/
def filesysOpen (name : Name) : M (Option Nat) := do
  match ← dirOpenRoot with
  | none => fileOpen none
  | some dir => do
    let inode ← dirLookup dir name
    dirClose (some dir)
    fileOpen inode

/-- mirrors filesys/filesys.c:83-91 -/
def filesysRemove (name : Name) : M Bool := do
  match ← dirOpenRoot with
  | none => pure false
  | some dir => do
    let success ← dirRemove dir name
    dirClose (some dir)
    pure success

/-! ## Start and end -/

/-- `bits` are what the memory of the bitmap holds.
mirrors filesys/free-map.c:12-20 -/
def freeMapInit (bits : Nat → Bool) : M Unit := do
  let bitmap ← malloc
  if bitmap then do
    let ok ← malloc
    let s ← get
    if ok = true ∨ s.devSize = 0 then
      modify fun s => s.setFreeMap fun i =>
        i == freeMapSector || i == rootDirSector || (decide (s.devSize ≤ i) && bits i)
    else panic .boot
  else panic .boot

/-- mirrors filesys/free-map.c:53-61 -/
def freeMapOpen : M Unit := do
  let p ← inodeOpen freeMapSector
  match ← fileOpen p with
  | none => panic .boot
  | some g => do
    modify fun s => s.setFreeMapFile (some g)
    let ok ← bitmapRead g
    if ok then pure () else panic .boot

/-- mirrors filesys/free-map.c:64-68 -/
def freeMapClose : M Unit := do
  let s ← get
  match s.freeMapFile with
  | none => pure ()
  | some g => fileClose g

/-- mirrors filesys/free-map.c:72-85 -/
def freeMapCreate : M Unit := do
  let s ← get
  let made ← inodeCreate freeMapSector (byteCnt s.devSize)
  if made then do
    let p ← inodeOpen freeMapSector
    match ← fileOpen p with
    | none => panic .boot
    | some g => do
      modify fun s => s.setFreeMapFile (some g)
      let ok ← bitmapWrite (some g)
      if ok then pure () else panic .boot
  else panic .boot

/-- mirrors filesys/filesys.c:93-103 -/
def doFormat : M Unit := do
  freeMapCreate
  let made ← dirCreate rootDirSector 16
  if made then freeMapClose else panic .boot

/-- mirrors filesys/filesys.c:17-31 -/
def filesysInit (bits : Nat → Bool) (format : Bool) : M Unit := do
  modify fun s => s.setOpen []
  freeMapInit bits
  if format then do
    doFormat
    freeMapOpen
  else freeMapOpen

/-- mirrors filesys/filesys.c:35-39 -/
def filesysDone : M Unit := freeMapClose

/-- The machine at power-on, with the device as it was left. -/
def powerOn (devSize : Nat) (disk : Nat → Block) (mem : List Bool) : St where
  devSize := devSize
  disk := disk
  freeMap := fun _ => false
  freeMapFile := none
  inodes := fun _ => none
  openInodes := []
  files := fun _ => none
  brk := 0
  mem := mem

/-! ## Calls -/

/-- The calls of the rest of the kernel. `create` comes with what its
uninitialised directory entry holds. -/
inductive Op where
  | create (name : Name) (initialSize : Int) (e : List Byte)
  | open (name : Name)
  | remove (name : Name)
  | reopen (g : Nat)
  | close (g : Nat)
  | read (g : Nat) (size : Int)
  | write (g : Nat) (bs : List Byte)
  | readAt (g : Nat) (size ofs : Int)
  | writeAt (g : Nat) (bs : List Byte) (ofs : Int)
  | seek (g : Nat) (pos : Int)
  | denyWrite (g : Nat)
  | allowWrite (g : Nat)

/-- What a call returns. -/
inductive Ret where
  | unit
  | bool (b : Bool)
  | handle (g : Option Nat)
  | bytes (bs : List Byte)
  | count (n : Nat)
  deriving DecidableEq

def Op.code : Op → M Ret
  | .create name size e => do let b ← filesysCreate name size e; pure (.bool b)
  | .open name => do let g ← filesysOpen name; pure (.handle g)
  | .remove name => do let b ← filesysRemove name; pure (.bool b)
  | .reopen g => do let g ← fileReopen g; pure (.handle g)
  | .close g => do fileClose g; pure .unit
  | .read g size => do let bs ← fileRead g size; pure (.bytes bs)
  | .write g bs => do let n ← fileWrite g bs; pure (.count n)
  | .readAt g size ofs => do let bs ← fileReadAt g size ofs; pure (.bytes bs)
  | .writeAt g bs ofs => do let n ← fileWriteAt g bs ofs; pure (.count n)
  | .seek g pos => do fileSeek g pos; pure .unit
  | .denyWrite g => do fileDenyWrite g; pure .unit
  | .allowWrite g => do fileAllowWrite g; pure .unit

/-- The handle a call is made with. -/
def Op.handle : Op → Option Nat
  | .create .. | .open _ | .remove _ => none
  | .reopen g | .close g | .read g _ | .write g _ | .readAt g _ _ | .writeAt g _ _ | .seek g _ | .denyWrite g
  | .allowWrite g => some g

/-- A handle that has been returned and not been closed. The file of the free
map is not handed out. -/
def St.Handle (s : St) (g : Nat) : Prop := (s.files g).isSome = true ∧ s.freeMapFile ≠ some g

instance (s : St) (g : Nat) : Decidable (s.Handle g) := inferInstanceAs (Decidable (_ ∧ _))

end Pintos.Fs
