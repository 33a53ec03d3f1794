import Pintos.L2Code.CmdLine
import Pintos.L2Code.Syscall

/-!
# userprog/process.c: loading an executable

`load` reads the ELF header and the program headers of the executable, sets
up one page per page of its segments and the first page of the stack.
-/
namespace Pintos.Vm

open Pintos.Core

/-! ## Headers -/

def half (b : List Byte) (o : Nat) : Nat := (b.getD o 0).toNat + (b.getD (o + 1) 0).toNat * 2 ^ 8

def word (b : List Byte) (o : Nat) : Nat := half b o + half b (o + 2) * 2 ^ 16

/-- The checks `load` makes of the 52 bytes of the `Elf32_Ehdr` `b`.
mirrors userprog/process.c:351-361 -/
def ehdrOk (b : List Byte) : Bool :=
  b.length = 52 && b.take 7 = [0x7f, 0x45, 0x4c, 0x46, 1, 1, 1] && half b 16 = 2 &&
    half b 18 = 3 && word b 20 = 1 && half b 42 = 32 && half b 44 ≤ 1024

/-- mirrors userprog/process.c:277-288, the members that are used -/
structure Phdr where
  type : Nat
  offset : Nat
  vaddr : Nat
  filesz : Nat
  memsz : Nat
  writable : Bool

def Phdr.decode (b : List Byte) : Phdr :=
  ⟨word b 0, word b 4, word b 8, word b 16, word b 20, word b 24 / 2 % 2 = 1⟩

/-- `length` is `file_length (file)`.
mirrors userprog/process.c:435-479 -/
def validateSegment (h : Phdr) (length : Nat) : Bool :=
  pgOfs h.offset = pgOfs h.vaddr && h.offset ≤ length && h.filesz ≤ h.memsz && h.memsz ≠ 0 &&
    h.vaddr < physBase && u32 (h.vaddr + h.memsz) < physBase && h.vaddr ≤ u32 (h.vaddr + h.memsz) &&
    pgSize ≤ h.vaddr

/-! ## Segments -/

/-- `p->file = file; p->file_offset = ofs; p->file_bytes = page_read_bytes;` -/
def setSegPage (p : PageId) (g : FileId) (ofs bytes : Nat) : K Unit :=
  modPage (.setFile p) p fun r => { r with file := some g, fileOffset := ofs, fileBytes := bytes }

/-- The loop of `load_segment`, with `n` pages left.
mirrors userprog/process.c:498-518 -/
def segLoop (g : FileId) (writable : Bool) : Nat → Nat → Nat → Nat → K Bool
  | 0, _, _, _ => pure true
  | n + 1, ofs, upage, readBytes => do
    let bytes := if readBytes < pgSize then readBytes else pgSize
    match ← pageAllocate upage (!writable) with
    | none => pure false
    | some p => do
      doIf (0 < bytes) (setSegPage p g ofs bytes)
      segLoop g writable n (ofs + bytes) (upage + pgSize) (readBytes - bytes)

/-- mirrors userprog/process.c:490-519 -/
def loadSegment (g : FileId) (ofs upage readBytes zeroBytes : Nat) (writable : Bool) : K Bool := do
  assert ((readBytes + zeroBytes) % pgSize = 0)
  assert (pgOfs upage = 0)
  assert (ofs % pgSize = 0)
  segLoop g writable ((readBytes + zeroBytes) / pgSize) ofs upage readBytes

/-- The body of the `switch` in `load`; false is `goto done`.
mirrors userprog/process.c:376-418 -/
def loadPhdr (g : FileId) (h : Phdr) : K Bool := do
  if h.type = 2 ∨ h.type = 3 ∨ h.type = 5 then pure false
  else if h.type = 1 then
    let length ← fileLength g
    if validateSegment h length then
      let readBytes := if 0 < h.filesz then pgOfs h.vaddr + h.filesz else 0
      let zeroBytes := roundUp (pgOfs h.vaddr + h.memsz) pgSize - readBytes
      loadSegment g (pgRoundDown h.offset) (pgRoundDown h.vaddr) readBytes zeroBytes h.writable
    else pure false
  else pure true

/-- The loop over the program headers, with `n` headers left.
mirrors userprog/process.c:364-419 -/
def phdrLoop (g : FileId) : Nat → Int → K Bool
  | 0, _ => pure true
  | n + 1, fileOfs => do
    let length ← fileLength g
    if fileOfs < 0 ∨ (length : Int) < fileOfs then pure false
    else
      fileSeek g fileOfs.toNat
      let b ← fileRead g 32
      if b.length = 32 then
        if ← loadPhdr g (.decode b) then phdrLoop g n (fileOfs + 32) else pure false
      else pure false

/-! ## The stack -/

/-- `init_cmd_line (page->frame->base, page->addr, cmd_line, esp)`. -/
def writeCmdLine (p : PageId) (f : FrameId) (upage : Nat) (cmdLine : List Byte) : K (Option Nat) :=
  .prim (.initCmdLine p) fun _ _ s =>
    match initCmdLine (s.ram f) upage cmdLine with
    | none => .ok none s
    | some (m, esp) => .ok (some esp) (s.setRam f m)

/-- The page has a locked frame. -/
def fillStack (p : PageId) (f : FrameId) (cmdLine : List Byte) : K (Option Nat) := do
  modPage .tau p fun r => { r with readOnly := false }
  modPage .tau p fun r => { r with priv := false }
  let r ← readPage p
  let esp ← writeCmdLine p f r.addr cmdLine
  frameUnlock f
  pure esp

/-- The initial stack pointer, or `none` on failure.
mirrors userprog/process.c:606-624 -/
def setupStack (cmdLine : List Byte) : K (Option Nat) := do
  match ← pageAllocate (physBase - pgSize) false with
  | none => pure none
  | some p => do
    let f? ← frameAllocAndLock p
    setPageFrame p f?
    match f? with
    | none => pure none
    | some f => fillStack p f cmdLine

/-! ## Load -/

/-- `t->pagedir = pagedir_create ()`. -/
def pagedirCreate : K Bool := .prim .tau fun t e s =>
  .ok e.isSome (s.setPagedir t (e.map fun _ => .empty))

/-- `t->pages = malloc (sizeof *t->pages)`. -/
def mallocPages : K Bool := .prim .tau fun t e s =>
  .ok e.isSome (s.setTable t (e.map fun _ => ⟨false, []⟩))

/-- `hash_init (t->pages, ...)`, whose result `load` ignores. -/
def hashInit : K Unit := .prim .tau fun t e s =>
  .ok () (s.setTable t ((s.tables t).map fun _ => ⟨e.isSome, []⟩))

/-- `while (*cmd_line == ' ') cmd_line++;` -/
def skipLeading (cmdLine : List Byte) : List Byte := cmdLine.dropWhile (· = space)

/-- The first 15 bytes up to the first space.
mirrors userprog/process.c:335-340 -/
def fileName (cmdLine : List Byte) : List Byte := (cmdLine.take 15).takeWhile (· ≠ space)

/-- The executable is open and writes to it are denied.
mirrors userprog/process.c:351-424 -/
def loadFile (g : FileId) (cmdLine : List Byte) : K (Option Nat) := do
  let ehdr ← fileRead g 52
  if ehdrOk ehdr then
    if ← phdrLoop g (half ehdr 44) (offT (word ehdr 28)) then setupStack cmdLine else pure none
  else pure none

/-- The initial stack pointer, or `none` on failure.
mirrors userprog/process.c:307-429 -/
def load (cmdLine : List Byte) : K (Option Nat) := do
  if ← pagedirCreate then
    if ← mallocPages then
      hashInit
      match ← openBinFile (fileName (skipLeading cmdLine)) with
      | none => pure none
      | some g => do
        fileDenyWrite g
        loadFile g (skipLeading cmdLine)
    else pure none
  else pure none

/-- `malloc (sizeof *exec->wait_status)`. -/
def mallocWaitStatus : K Bool := .prim .tau fun _ e s => .ok e.isSome s

/-- mirrors userprog/process.c:72-115 -/
def startProcess (cmdLine : List Byte) : K Unit := do
  modProc fun P => { P with status := .loading }
  match ← load cmdLine with
  | none => threadExit
  | some _ => do
    if ← mallocWaitStatus then modProc fun P => { P with status := .running }
    else threadExit

end Pintos.Vm
