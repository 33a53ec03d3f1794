import Pintos.Core.RelyGuarantee
import Pintos.L2Code.System

/-!
# The invariant of the kernel and what one process owes the others

Each part of the invariant is a structure over the components of the machine
it speaks about, so that an action that leaves them alone leaves it alone.

* `FrameInv`: frames and pages point at each other.
* `TableInv`, `MapInv`: the hash table of a process holds exactly its pages,
  one per address, and its mappings cover disjoint mmap pages.
* `PteInv`: a present entry maps the frame of a page of the process.
* `SwapInv`, `LeakInv`: who owns which swap slot and what it holds.
* `FileInv`: open files, their counters, and who refers to them.
* `DataInv`: where the specified memory of a page is to be found.
* `RangeInv`: the addresses of pages.

A frame is protected by its lock. `Keep t w w'` is what a step of another
process leaves alone as seen from `t`: the locks `t` holds, a page whose frame
`t` has locked, everything private to `t`; and its own pages change only in
the way an eviction changes them.
-/
namespace Pintos.Vm

open Pintos.Core

abbrev W := World kernel

/-- Which of the properties that need a condition on the run are tracked. -/
structure Goals where
  data : Prop
  leak : Prop
  range : Prop

/-- A page of a memory mapping: it is written back to its file. (`swap_out`
clears `private` before it clears `file`, but only once `sector` is set.) -/
def Page.isMmap (r : Page) : Bool := r.sector.isNone && r.file.isSome && !r.priv && !r.readOnly

/-- `process_exit` has not begun. -/
def Status.alive (x : Status) : Prop := x ≠ .exiting ∧ x ≠ .dead

/-! ## Invariants -/

/-- `L f` is the holder of the lock of frame `f`, `gu` the pages whose frame
has been handed back. -/
structure FrameInv (F : FrameId → Option PageId) (L : FrameId → Option Tid)
    (P : PageId → Option Page) (gu : PageId → Bool) : Prop where
  free : ∀ {f p}, L f = none → F f = some p →
    ∃ r, P p = some r ∧ r.frame = some f ∧ r.sector = none ∧ gu p = false
  back : ∀ {p r f}, P p = some r → r.frame = some f → gu p = false → F f = some p
  gone : ∀ {p r f}, P p = some r → r.frame = some f → gu p = true → F f ≠ some p

structure TableInv (T : Tid → Option PageTable) (P : PageId → Option Page) : Prop where
  page : ∀ {t p}, p ∈ elemsOf (T t) → ∃ r, P p = some r ∧ r.thread = t
  nodup : ∀ t, (elemsOf (T t)).Nodup
  uniq : ∀ {t p q r r'}, p ∈ elemsOf (T t) → q ∈ elemsOf (T t) → P p = some r → P q = some r' →
    r.addr = r'.addr → p = q
  aligned : ∀ {p r}, P p = some r → pgOfs r.addr = 0
  owned : ∀ {p r}, P p = some r → p ∈ elemsOf (T r.thread)

/-- A process that has not started has nothing. -/
def NewInv (Pr : Tid → Proc) (T : Tid → Option PageTable) (pd : Tid → Option Pagedir) : Prop :=
  ∀ t, (Pr t).status = .new → Pr t = .init ∧ T t = none ∧ pd t = none

structure PteInv (Pr : Tid → Proc) (pd : Tid → Option Pagedir) (T : Tid → Option PageTable)
    (P : PageId → Option Page) (gu : PageId → Bool) : Prop where
  page : ∀ {t a}, (Pr t).status.alive → (pteOf (pd t) a).present = true →
    ∃ p r, p ∈ elemsOf (T t) ∧ P p = some r ∧ r.addr = a ∧
      r.frame = some (pteOf (pd t) a).frame ∧ (pteOf (pd t) a).writable = (!r.readOnly) ∧ gu p = false

/-- The addresses of the pages of a mapping. -/
def Mapping.addrs (M : Mapping) : List Nat :=
  (List.range M.pageCnt).map fun i => u32 (M.base + pgSize * i)

/-- The addresses that the mappings of a process cover. -/
def Proc.covered (P : Proc) : List Nat :=
  P.mappings.flatMap fun m => ((P.maps m).map Mapping.addrs).getD []

structure MapInv (Pr : Tid → Proc) (T : Tid → Option PageTable) (P : PageId → Option Page) :
    Prop where
  live : ∀ {t m}, m ∈ (Pr t).mappings → ((Pr t).maps m).isSome
  nodup : ∀ t, (Pr t).covered.Nodup
  page : ∀ {t a}, a ∈ (Pr t).covered →
    ∃ p r, p ∈ elemsOf (T t) ∧ P p = some r ∧ r.addr = a ∧ r.isMmap = true

structure SwapInv (P : PageId → Option Page) (L : FrameId → Option Tid) (gu : PageId → Bool)
    (used : Nat → Bool) (disk : Nat → Nat → Byte) (slots : Nat) (claim : Nat → Option Tid)
    (released swapping : PageId → Bool) (saved : PageId → Nat → Byte) : Prop where
  /-- A page is in the middle of `swap_in` or `swap_out` only while its frame is locked. -/
  busy : ∀ {p r}, P p = some r → (released p = true ∨ swapping p = true) →
    gu p = false ∧ ∃ f u, r.frame = some f ∧ L f = some u
  slot : ∀ {p r x}, P p = some r → r.sector = some x →
    ∃ k, x = k * pageSectors ∧ k < slots ∧ (released p = false → used k = true)
  excl : ∀ {p q r r' x}, P p = some r → P q = some r' → r.sector = some x → r'.sector = some x →
    released p = false → released q = false → p = q
  claimed : ∀ {t k}, claim k = some t → used k = true ∧ k < slots ∧
    ∀ p r, P p = some r → r.sector = some (k * pageSectors) → released p = true
  /-- `swap_out` has cleared `file` before the page loses its frame. -/
  noFile : ∀ {p r}, P p = some r → r.sector.isSome → r.frame = none → r.file = none
  contents : ∀ {p r x}, P p = some r → r.sector = some x → released p = false →
    swapping p = false → ∀ o < pgSize, disk (x + o / blockSectorSize) (o % blockSectorSize) = saved p o

/-- Every used slot has an owner. -/
def LeakInv (P : PageId → Option Page) (used : Nat → Bool) (claim : Nat → Option Tid)
    (released : PageId → Bool) : Prop :=
  ∀ k, used k = true → (claim k).isSome ∨
    ∃ p r, P p = some r ∧ r.sector = some (k * pageSectors) ∧ released p = false

/-- File `g` is open, and neither a descriptor nor a process will close it. -/
def Kept (files : FileId → Option File) (Pr : Tid → Proc) (g : FileId) : Prop :=
  (files g).isSome ∧ ∀ t, (Pr t).binFile ≠ some g ∧ ∀ fd ∈ (Pr t).fds, fd.file ≠ g

/-- The open files of inode `i`, and those that deny writes to it. -/
def openSet (files : FileId → Option File) (i : InodeId) : Set FileId :=
  {g | ∃ F, files g = some F ∧ F.inode = i}

def denySet (files : FileId → Option File) (i : InodeId) : Set FileId :=
  {g | ∃ F, files g = some F ∧ F.inode = i ∧ F.denyWrite = true}

structure FileInv (files : FileId → Option File) (inodes : InodeId → Inode) (Pr : Tid → Proc)
    (P : PageId → Option Page) : Prop where
  fd : ∀ {t fd}, fd ∈ (Pr t).fds → ∃ F, files fd.file = some F ∧ F.denyWrite = false
  fdNodup : ∀ t, ((Pr t).fds.map FileDescriptor.file).Nodup
  fdOwner : ∀ {t t' fd fd'}, fd ∈ (Pr t).fds → fd' ∈ (Pr t').fds → fd.file = fd'.file → t = t'
  bin : ∀ {t g}, (Pr t).binFile = some g → (files g).isSome ∧ ∀ t' fd, fd ∈ (Pr t').fds → fd.file ≠ g
  binOwner : ∀ {t t' g}, (Pr t).binFile = some g → (Pr t').binFile = some g → t = t'
  map : ∀ {t m M}, m ∈ (Pr t).mappings → (Pr t).maps m = some M →
    ∃ g, M.file = some g ∧ Kept files Pr g
  mmap : ∀ {p r}, P p = some r → r.isMmap = true → ∃ g, r.file = some g ∧ Kept files Pr g
  seg : ∀ {p r g}, P p = some r → r.isMmap = false → r.file = some g →
    (Pr r.thread).binFile = some g ∧ ∃ F, files g = some F ∧ F.denyWrite = true
  opened : ∀ i, (openSet files i).encard = (inodes i).openCnt
  denied : ∀ i, (denySet files i).encard = (inodes i).denyWriteCnt

/-- The bytes of frame `f` are the specified memory of the page with record
`r`, and while the page has a file and is clean, so is its backing `B`. -/
def InRam (ram : FrameId → Nat → Byte) (B : Page → Nat → Byte) (pd : Tid → Option Pagedir)
    (mem : Tid → Nat → Byte) (r : Page) (f : FrameId) : Prop :=
  ∀ o < pgSize, ram f o = mem r.thread (r.addr + o) ∧
    (r.file.isSome → (pteOf (pd r.thread) r.addr).dirty = false → B r o = mem r.thread (r.addr + o))

/-- The copy of a page without a frame is its specified memory. -/
def Stored (B : Page → Nat → Byte) (saved : PageId → Nat → Byte) (mem : Tid → Nat → Byte)
    (p : PageId) (r : Page) : Prop :=
  ∀ o < pgSize, (if r.sector.isSome then saved p o else B r o) = mem r.thread (r.addr + o)

structure DataInv (T : Tid → Option PageTable) (P : PageId → Option Page) (L : FrameId → Option Tid)
    (gu : PageId → Bool) (pd : Tid → Option Pagedir) (ram : FrameId → Nat → Byte)
    (B : Page → Nat → Byte) (saved : PageId → Nat → Byte) (mem : Tid → Nat → Byte) : Prop where
  out : ∀ {t p r}, p ∈ elemsOf (T t) → P p = some r → r.isMmap = false → r.frame = none →
    Stored B saved mem p r
  inn : ∀ {t p r f}, p ∈ elemsOf (T t) → P p = some r → r.isMmap = false → r.frame = some f →
    gu p = false → (L f = none ∨ (pteOf (pd t) r.addr).present = true) → InRam ram B pd mem r f

structure RangeInv (Pr : Tid → Proc) (T : Tid → Option PageTable) (P : PageId → Option Page) :
    Prop where
  range : ∀ {t p r}, p ∈ elemsOf (T t) → P p = some r → pgSize ≤ r.addr ∧ r.addr < physBase
  stack : ∀ {t}, (Pr t).status = .running →
    ∃ p r, p ∈ elemsOf (T t) ∧ P p = some r ∧ r.addr = physBase - pgSize ∧ r.isMmap = false

/-- Who holds the lock of each frame. -/
abbrev St.holder (s : St) : FrameId → Option Tid := fun f => s.locks (.frame f)

/-- **The invariant.** -/
structure Inv (G : Goals) (w : W) : Prop where
  frame : FrameInv w.st.frames w.st.holder w.st.pages w.aux.givenUp
  table : TableInv w.st.tables w.st.pages
  fresh : NewInv w.st.procs w.st.tables w.st.pagedirs
  pte : PteInv w.st.procs w.st.pagedirs w.st.tables w.st.pages w.aux.givenUp
  map : MapInv w.st.procs w.st.tables w.st.pages
  swap : SwapInv w.st.pages w.st.holder w.aux.givenUp w.st.swapUsed w.st.swapDisk w.st.swapSlots
    w.aux.claim w.aux.released w.aux.swapping w.aux.saved
  file : FileInv w.st.files w.st.inodes w.st.procs w.st.pages
  leak : G.leak → LeakInv w.st.pages w.st.swapUsed w.aux.claim w.aux.released
  data : G.data → DataInv w.st.tables w.st.pages w.st.holder w.aux.givenUp w.st.pagedirs w.st.ram
    w.st.backing w.aux.saved w.aux.mem
  range : G.range → RangeInv w.st.procs w.st.tables w.st.pages

end Pintos.Vm
