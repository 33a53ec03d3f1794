import Pintos.L2Code.ProcFiles

/-!
# sys_read and sys_write with their buffers

The two calls of userprog/syscall.c as a process makes them: the descriptor
table, the buffer in the memory of the process, the pages it is split at, the
keyboard and the console.

The result of `page_lock` for an address is given; a page that is locked can be
accessed. The variable `retval` of `sys_read` is not initialised: `junk udst`
is what it holds in the iteration for the piece at `udst`, until a value is
assigned. A process that is terminated makes no further step, so `thread_exit`
ends the computation.
-/
namespace Pintos.Descriptors

/-- `struct file_descriptor`, and of `struct mapping` what refers to the file.
mirrors userprog/syscall.c:244-249,473-480 -/
structure Binding where
  handle : Int
  file : Nat
  deriving DecidableEq

/-- `nextHandle` is an `int`.
mirrors threads/thread.c:476-484 -/
structure Proc where
  alive : Bool
  nextHandle : Int
  fds : List Binding
  mappings : List Binding

/-- The descriptor that the loop of `lookup_fd` finds. -/
def Proc.lookupFd (p : Proc) (h : Int) : Option Binding := p.fds.find? fun fd => fd.handle == h

def stdoutFileno : Int := 1

end Pintos.Descriptors

namespace Pintos.ReadWrite

open Pintos.Core

abbrev Byte := Fs.Byte

/-- `PGSIZE`. -/
def pgSize : Nat := 4096

def stdinFileno : Int := 0

inductive Stop
  | exit
  | panic (e : Fs.Panic)

/-- A process and what its calls act on. `keys` are the bytes of the input that
have not been read yet. -/
structure St where
  fs : Fs.St
  proc : Descriptors.Proc
  user : Nat → Byte
  keys : Nat → Byte
  console : List Byte

abbrev M := Code St Stop

def onFs {α : Type} (c : Fs.M α) : M α := Code.zoom St.fs (fun s f => { s with fs := f }) .panic c

def threadExit {α : Type} : M α := Code.fail .exit

/-- `if (!page_lock (addr, will_write)) thread_exit ();` -/
def pageLock (lock : Nat → Bool → Bool) (addr : Nat) (willWrite : Bool) : M Unit :=
  if lock addr willWrite then pure () else threadExit

/-- mirrors userprog/syscall.c:282-298 -/
def lookupFd (h : Int) : M Descriptors.Binding := do
  let s ← Code.get
  match s.proc.lookupFd h with
  | some fd => pure fd
  | none => threadExit

/-- The bytes of a buffer in memory. -/
def bytesAt (user : Nat → Byte) (a n : Nat) : List Byte := (List.range n).map fun i => user (a + i)

/-- Memory with the bytes `bs` at `a`. -/
def storeAt (user : Nat → Byte) (a : Nat) (bs : List Byte) : Nat → Byte := fun x =>
  if a ≤ x ∧ x < a + bs.length then bs.getD (x - a) 0 else user x

def store (a : Nat) (bs : List Byte) : M Unit := Code.modify fun s => { s with user := storeAt s.user a bs }

/-- mirrors devices/input.c:28-42 -/
def inputGetc : M Byte := fun s => .ok (s.keys 0, { s with keys := fun n => s.keys (n + 1) })

def putbuf (bs : List Byte) : M Unit := Code.modify fun s => { s with console := s.console ++ bs }

/-- How much of `size` bytes at `addr` lies in the page of `addr`.
mirrors userprog/syscall.c:326-327,392-393 -/
def pieceSize (addr size : Nat) : Nat :=
  if size < pgSize - addr % pgSize then size else pgSize - addr % pgSize

/-! ## Reading -/

/-- mirrors userprog/syscall.c:344-351 -/
def keyLoop (lock : Nat → Bool → Bool) (udst : Nat) : Nat → Nat → M Unit
  | 0, _ => pure ()
  | n + 1, i => do
    let c ← inputGetc
    pageLock lock udst true
    store (udst + i) [c]
    keyLoop lock udst n (i + 1)

/-- One piece: `bytes_read` and `retval` afterwards.
mirrors userprog/syscall.c:331-353 -/
def readPiece (lock : Nat → Bool → Bool) (junk : Nat → Int) (handle : Int) (g udst readAmt : Nat) (bytesRead : Int) :
    M (Int × Int) :=
  if handle ≠ stdinFileno then do
    pageLock lock udst true
    let bs ← onFs (Fs.fileRead g readAmt)
    store udst bs
    pure (bytesRead, bs.length)
  else do
    keyLoop lock udst readAmt 0
    pure (readAmt, junk udst)

/-- The loop goes on after a whole piece, so that `size` bounds the number of
iterations.
mirrors userprog/syscall.c:323-372 -/
def readLoop (lock : Nat → Bool → Bool) (junk : Nat → Int) (handle : Int) (g : Nat) : Nat → Nat → Nat → Int → M Int
  | 0, _, _, bytesRead => pure bytesRead
  | n + 1, udst, size, bytesRead =>
    if size = 0 then pure bytesRead
    else do
      let readAmt := pieceSize udst size
      let (bytesRead, retval) ← readPiece lock junk handle g udst readAmt bytesRead
      if retval < 0 then pure (if bytesRead = 0 then -1 else bytesRead)
      else if retval ≠ readAmt then pure (bytesRead + retval)
      else readLoop lock junk handle g n (udst + readAmt) (size - readAmt) (bytesRead + retval)

/-- mirrors userprog/syscall.c:315-375 -/
def sysRead (lock : Nat → Bool → Bool) (junk : Nat → Int) (handle : Int) (udst size : Nat) : M Int := do
  let fd ← lookupFd handle
  readLoop lock junk handle fd.file size udst size 0

/-! ## Writing -/

/-- One piece: `retval`, which is never negative. There is no descriptor for
the console.
mirrors userprog/syscall.c:396-408 -/
def writePiece (lock : Nat → Bool → Bool) (fd : Option Descriptors.Binding) (usrc writeAmt : Nat) : M Nat := do
  pageLock lock usrc false
  let s ← Code.get
  match fd with
  | none => do
    putbuf (bytesAt s.user usrc writeAmt)
    pure writeAmt
  | some fd => onFs (Fs.fileWrite fd.file (bytesAt s.user usrc writeAmt))

/-- mirrors userprog/syscall.c:389-426 -/
def writeLoop (lock : Nat → Bool → Bool) (fd : Option Descriptors.Binding) : Nat → Nat → Nat → Int → M Int
  | 0, _, _, bytesWritten => pure bytesWritten
  | n + 1, usrc, size, bytesWritten =>
    if size = 0 then pure bytesWritten
    else do
      let writeAmt := pieceSize usrc size
      let retval ← writePiece lock fd usrc writeAmt
      if retval ≠ writeAmt then pure (bytesWritten + retval)
      else writeLoop lock fd n (usrc + writeAmt) (size - writeAmt) (bytesWritten + retval)

/-- mirrors userprog/syscall.c:378-429 -/
def sysWrite (lock : Nat → Bool → Bool) (handle : Int) (usrc size : Nat) : M Int := do
  if handle ≠ Descriptors.stdoutFileno then do
    let fd ← lookupFd handle
    writeLoop lock (some fd) size usrc size 0
  else writeLoop lock none size usrc size 0

end Pintos.ReadWrite
