import Pintos.L2Code.Syscall

/-!
# User memory

The loads and stores of a process and the page faults they cause
(userprog/exception.c), and the kernel's accesses to user memory under
`page_lock`: `copy_in`, `sys_read` and `sys_write` (userprog/syscall.c).
-/
namespace Pintos.Vm

open Pintos.Core

/-! ## User memory -/

inductive Access where
  | done | notPresent | violation
  deriving DecidableEq

/-- The hardware's access to the byte at `a` of process `t`: a load, or a
store of a byte. `none` when the entry does not allow it. -/
def access (s : St) (t : Tid) (a : Nat) (w : Option Byte) : Option St :=
  let e := s.pte t (pgRoundDown a)
  if e.present then
    match w with
    | none => some (setPte s t (pgRoundDown a) { e with accessed := true })
    | some b =>
      if e.writable then
        some (setPte (s.setRam e.frame (Function.update (s.ram e.frame) (pgOfs a) b))
          t (pgRoundDown a) { e with accessed := true, dirty := true })
      else none
  else none

def accessLbl (a : Nat) : Option Byte → Lbl
  | none => .load a
  | some b => .store a b

/-- An access of the user program. -/
def touch (a : Nat) (w : Option Byte) : K Access := .prim (accessLbl a w) fun t _ s =>
  if a < physBase then
    match access s t a w with
    | some s' => .ok .done s'
    | none => .ok (if (s.pte t (pgRoundDown a)).present then .violation else .notPresent) s
  else .ok .violation s

/-- An access of the kernel to user memory; a fault is a kernel bug
(`kill`, userprog/exception.c:74-110). -/
def kernelTouch (a : Nat) (w : Option Byte) : K Unit := .prim (accessLbl a w) fun t _ s =>
  if a < physBase then
    match access s t a w with
    | some s' => .ok () s'
    | none => .panic .kernelFault
  else .panic .kernelFault

/-- The byte that a load of process `t` at `a` gets; `none` is a fault. -/
def userByte (s : St) (t : Tid) (a : Nat) : Option Byte := if a < physBase then kernelByte s t a else none

/-- `thread_current ()->user_esp = frame->esp` (threads/interrupt.c:362-364). -/
def setUserEsp (esp : Nat) : K Unit := modProc fun P => { P with userEsp := esp }

/-- A user access and the fault it may cause.
mirrors userprog/exception.c:124-169 -/
def userAccess (esp a : Nat) (w : Option Byte) : K Unit := do
  match ← touch a w with
  | .done => pure ()
  | .notPresent => do
    setUserEsp esp
    if ← pageIn a then pure () else threadExit
  | .violation => do
    setUserEsp esp
    threadExit

/-- The kernel's accesses to the page at `a`. -/
def copyLoop (a : Nat) : List (Nat × Option Byte) → K Unit
  | [] => pure ()
  | (o, w) :: ops => do
    kernelTouch (pgRoundDown a + pgOfs o) w
    copyLoop a ops

/-- What `copy_in` and `copy_in_string` do for one page
(userprog/syscall.c:102-160). -/
def lockedCopy (esp a : Nat) (willWrite : Bool) (ops : List (Nat × Option Byte)) : K Unit := do
  setUserEsp esp
  if ← pageLock a willWrite then
    copyLoop a ops
    pageUnlock a
  else threadExit

/-! ## read and write

A handle below 2 is never in the descriptor list, so `lookup_fd` ends the
process when it reads from the keyboard. -/

/-- The bytes of the file are copied to user memory. -/
def storeBytes (a : Nat) : List Byte → K Unit
  | [] => pure ()
  | b :: bs => do
    kernelTouch a (some b)
    storeBytes (a + 1) bs

/-- The loop of `sys_read` with `size` bytes left, `n` of which bounds the
number of iterations; `none` when the process was ended.
mirrors userprog/syscall.c:323-372 -/
def readLoop (g : FileId) : Nat → Nat → Nat → Int → K (Option Int)
  | 0, _, _, bytesRead => pure (some bytesRead)
  | n + 1, udst, size, bytesRead => do
    if 0 < size then
      let readAmt := min size (pgSize - pgOfs udst)
      if ← pageLock udst true then
        lockAcquire .fs
        let bs ← fileRead g readAmt
        storeBytes udst bs
        lockRelease .fs
        pageUnlock udst
        if bs.length = readAmt then
          readLoop g n (u32 (udst + readAmt)) (size - readAmt) (bytesRead + readAmt)
        else pure (some (bytesRead + bs.length))
      else
        threadExit
        pure none
    else pure (some bytesRead)

/-- mirrors userprog/syscall.c:315-375 -/
def sysRead (handle : Int) (udst size : Nat) : K (Option Int) := do
  match ← lookupFd handle with
  | none => do
    threadExit
    pure none
  | some fd => readLoop fd.file size udst size 0

/-- `file->pos`. -/
def filePos (g : FileId) : K Nat := .prim .tau fun _ _ s =>
  match s.files g with
  | none => .panic .freed
  | some F => .ok F.pos s

/-- `file_write (g, src, size)` where `src` is a virtual address of the
running process.
mirrors filesys/file.c:94-100 -/
def fileWrite (g : FileId) (src size : Nat) : K Nat := do
  let pos ← filePos g
  let bytesWritten ← fileWriteUser g src size pos
  fileSeek g (pos + bytesWritten)
  pure bytesWritten

/-- `putbuf (src, size)`. -/
def putbuf (src size : Nat) : K Nat := .prim .tau fun t _ s =>
  if (List.range size).all fun o => (kernelByte s t (u32 (src + o))).isSome then .ok size s
  else .panic .kernelFault

/-- The loop of `sys_write`; `g` is `none` for the console.
mirrors userprog/syscall.c:389-424 -/
def sysWriteLoop (g : Option FileId) : Nat → Nat → Nat → Int → K (Option Int)
  | 0, _, _, bytesWritten => pure (some bytesWritten)
  | n + 1, usrc, size, bytesWritten => do
    if 0 < size then
      let writeAmt := min size (pgSize - pgOfs usrc)
      if ← pageLock usrc false then
        lockAcquire .fs
        let retval ← g.elim (putbuf usrc writeAmt) fun g => fileWrite g usrc writeAmt
        lockRelease .fs
        pageUnlock usrc
        if retval = writeAmt then
          sysWriteLoop g n (u32 (usrc + retval)) (size - retval) (bytesWritten + retval)
        else pure (some (bytesWritten + retval))
      else
        threadExit
        pure none
    else pure (some bytesWritten)

/-- mirrors userprog/syscall.c:378-427 -/
def sysWrite (handle : Int) (usrc size : Nat) : K (Option Int) := do
  if handle = 1 then sysWriteLoop none size usrc size 0
  else
    match ← lookupFd handle with
    | none => do
      threadExit
      pure none
    | some fd => sysWriteLoop (some fd.file) size usrc size 0

end Pintos.Vm
