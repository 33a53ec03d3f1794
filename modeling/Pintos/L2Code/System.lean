import Pintos.L2Code.Load
import Pintos.L2Code.User

/-!
# The kernel as a system of processes

Any number of processes run side by side. A process that has not started may
be given a command line; a running process loads and stores bytes, faults,
has the kernel copy to and from its memory under `page_lock`, opens, reads,
writes, closes, maps and unmaps files, and exits. What it does next is up to the environment,
and between two actions of one process any other may run.

The auxiliary state follows the run:

* `mem t a` is the specified memory of process `t`: the byte it last stored at
  `a`, or what the backing of the page at `a` defines.
* `givenUp p`: the frame of `p` has been handed back with `frame_free`, and
  `p` is about to be freed.
* `claim k`: the process that has marked swap slot `k` used and not yet
  recorded it in a page; `released p`: the slot in `p->sector` is marked free
  again, and `p->sector` is about to be cleared.
* `saved p`: the bytes of the frame of `p` when `swap_out` last began to write
  it; `swapping p`: that write is not complete.
-/
namespace Pintos.Vm

open Pintos.Core Function

/-! ## Requests -/

inductive Req where
  | exec (cmdLine : List Byte)
  | access (esp a : Nat) (w : Option Byte)
  | copy (esp a : Nat) (willWrite : Bool) (ops : List (Nat × Option Byte))
  | openFile (name : List Byte)
  | closeFile (handle : Int)
  | read (esp : Nat) (handle : Int) (udst size : Nat)
  | write (esp : Nat) (handle : Int) (usrc size : Nat)
  | mmap (esp : Nat) (handle : Int) (addr : Nat)
  | unmap (m : Nat)
  | munmap (mapping : Int)
  | exit

/-- `unmap` is called for a mapping of the process, as `sys_munmap` is meant
to do. -/
def reqGuard (t : Tid) (r : Req) (s : St) : Bool :=
  match r with
  | .exec _ => (s.procs t).status = .new
  | .unmap m => (s.procs t).status = .running ∧ m ∈ (s.procs t).mappings
  | _ => (s.procs t).status = .running

def reqCode (_ : Tid) : Req → K Unit
  | .exec c => startProcess c
  | .access esp a w => userAccess esp a w
  | .copy esp a w ops => lockedCopy esp a w ops
  | .openFile n => do let _ ← sysOpen n
  | .closeFile h => sysClose h
  | .read esp h a n => do
    setUserEsp esp
    let _ ← sysRead h a n
  | .write esp h a n => do
    setUserEsp esp
    let _ ← sysWrite h a n
  | .mmap esp h a => do
    setUserEsp esp
    let _ ← sysMmap h a
  | .unmap m => unmap m
  | .munmap h => do let _ ← sysMunmap h
  | .exit => threadExit

/-! ## Auxiliary state -/

structure Aux where
  mem : Tid → Nat → Byte
  givenUp : PageId → Bool
  claim : Nat → Option Tid
  released : PageId → Bool
  swapping : PageId → Bool
  saved : PageId → Nat → Byte

def Aux.init : Aux :=
  ⟨fun _ _ => 0, fun _ => false, fun _ => none, fun _ => false, fun _ => false, fun _ _ => 0⟩

/-- Byte `o` of a page that holds `bytes` bytes of file `g` from `ofs` on and
zeros after them. -/
def St.fileByte (s : St) (g : FileId) (bytes ofs o : Nat) : Byte :=
  match s.files g with
  | none => 0
  | some F => if o < inFile (s.inodes F.inode) bytes ofs then (s.inodes F.inode).data (ofs + o) else 0

/-- Byte `o` of a page that has never been stored to. -/
def St.backing (s : St) (r : Page) (o : Nat) : Byte :=
  match r.file with
  | none => 0
  | some g => s.fileByte g r.fileBytes r.fileOffset o

/-- The bytes of the frame of page `p`. -/
def St.frameBytes (s : St) (p : PageId) (o : Nat) : Byte :=
  match s.pages p with
  | some ⟨_, _, _, some f, _, _, _, _, _⟩ => s.ram f o
  | _ => 0

/-- The specified memory with the page at `a` replaced. -/
def putPage (m : Nat → Byte) (a : Nat) (d : Nat → Byte) : Nat → Byte := fun x =>
  if pgRoundDown x = a then d (pgOfs x) else m x

/-- Page `p` of process `t` is given the bytes `d`. -/
def Aux.define (a : Aux) (s : St) (t : Tid) (p : PageId) (d : Page → Nat → Byte) : Aux :=
  match s.pages p with
  | none => a
  | some r => { a with mem := update a.mem t (putPage (a.mem t) r.addr (d r)) }

def auxStep (t : Tid) (l : Lbl) (e : Option Nat) (s s' : St) (a : Aux) : Aux :=
  match l with
  | .freeFrame f =>
    match s.frames f with
    | none => a
    | some p => { a with givenUp := update a.givenUp p true }
  | .allocPage =>
    match e.filter (· ∈ s'.table t) with
    | none => a
    | some p => { a.define s' t p (fun _ _ => 0) with
        givenUp := update a.givenUp p false
        released := update a.released p false
        swapping := update a.swapping p false }
  | .swapMark k => { a with claim := update a.claim k (some t) }
  | .setSector p k => { a with
      claim := update a.claim k none
      swapping := update a.swapping p true
      saved := update a.saved p (s.frameBytes p) }
  | .swapWrite p i =>
    if i + 1 = pageSectors then { a with swapping := update a.swapping p false } else a
  | .swapReset p => { a with released := update a.released p true }
  | .clearSector p => { a with released := update a.released p false }
  | .setFile p => a.define s' t p s'.backing
  | .initCmdLine p => a.define s' t p fun _ => s'.frameBytes p
  | .store x b =>
    let e := s.pte t (pgRoundDown x)
    if x < physBase ∧ e.present ∧ e.writable then
      { a with mem := update a.mem t (update (a.mem t) x b) }
    else a
  | _ => a

/-- The kernel. -/
abbrev kernel : System sig where
  Aux := Aux
  auxStep := auxStep
  Req := Req
  guard := reqGuard
  code := reqCode

/-- The machine when the kernel has initialised itself: no process, no open
file, no page in a frame, no swap slot in use. -/
structure Boot (s : St) : Prop where
  hand : s.hand = 0
  frames : ∀ f, s.frames f = none
  locks : ∀ l, s.locks l = none
  pages : ∀ p, s.pages p = none
  pagedirs : ∀ t, s.pagedirs t = none
  tables : ∀ t, s.tables t = none
  files : ∀ g, s.files g = none
  inodes : ∀ i, (s.inodes i).openCnt = 0 ∧ (s.inodes i).denyWriteCnt = 0
  procs : ∀ t, s.procs t = .init
  swap : ∀ k, s.swapUsed k = false

/-- The configurations of the runs from `s` whose actions meet `ok`. -/
abbrev RunsOk (ok : Tid → Lbl → Option Nat → St → Prop) (s : St) (c : Config kernel) : Prop :=
  kernel.Reach ok (kernel.idle s .init) c

end Pintos.Vm
