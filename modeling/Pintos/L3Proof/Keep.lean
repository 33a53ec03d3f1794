import Pintos.L3Proof.Inv

/-!
# Interference

`Keep G t w w'` relates the states before and after a step of a process other
than `t`. The logic of the kernel takes "`Keep` for everybody else" as the
guarantee of a process. Fields that an action does not concern are those of
`Keep.refl`.
-/
namespace Pintos.Vm

open Pintos.Core

/-- How a page record changes when another process evicts the page. -/
structure Evolves (r r' : Page) : Prop where
  addr : r'.addr = r.addr
  readOnly : r'.readOnly = r.readOnly
  thread : r'.thread = r.thread
  isMmap : r'.isMmap = r.isMmap
  out : r.frame = none → r' = r
  frame : r'.frame = r.frame ∨ r'.frame = none
  mmap : r.isMmap = true → r' = { r with frame := r'.frame }

theorem Evolves.refl (r : Page) : Evolves r r where
  addr := rfl
  readOnly := rfl
  thread := rfl
  isMmap := rfl
  out := fun _ => rfl
  frame := .inl rfl
  mmap := fun _ => rfl

/-- Another process can only clear the present bit and change the accessed bit. -/
structure PteLe (e e' : Pte) : Prop where
  frame : e'.frame = e.frame
  writable : e'.writable = e.writable
  dirty : e'.dirty = e.dirty
  present : e'.present = true → e.present = true

theorem PteLe.refl (e : Pte) : PteLe e e := ⟨rfl, rfl, rfl, fun h => h⟩

/-- The frame of a page of a table holds the specified memory. -/
def DataAt (w : W) (p : PageId) (r : Page) (f : FrameId) : Prop :=
  p ∈ w.st.table r.thread → r.isMmap = false →
    InRam w.st.ram w.st.backing w.st.pagedirs w.aux.mem r f

/-- What stays the same of page `p` in frame `f` while `f` is locked. -/
structure HeldSame (G : Goals) (f : FrameId) (p : PageId) (r : Page) (w w' : W) : Prop where
  page : w'.st.pages p = some r
  givenUp : w'.aux.givenUp p = w.aux.givenUp p
  released : w'.aux.released p = w.aux.released p
  swapping : w'.aux.swapping p = w.aux.swapping p
  saved : w'.aux.saved p = w.aux.saved p
  table : p ∈ w'.st.table r.thread → p ∈ w.st.table r.thread
  off : (w.st.pte r.thread r.addr).present = false →
    (w'.st.pte r.thread r.addr).present = false ∧
      (w'.st.pte r.thread r.addr).dirty = (w.st.pte r.thread r.addr).dirty ∧
      w'.st.ram f = w.st.ram f
  disk : ∀ x, r.sector = some x → w.aux.released p = false → ∀ i < pageSectors,
    w'.st.swapDisk (x + i) = w.st.swapDisk (x + i)
  data : G.data → DataAt w p r f → DataAt w' p r f

theorem HeldSame.refl (G : Goals) (f : FrameId) {p : PageId} {r : Page} {w : W} (hp : w.st.pages p = some r) :
    HeldSame G f p r w w where
  page := hp
  givenUp := rfl
  released := rfl
  swapping := rfl
  saved := rfl
  table := id
  off h := ⟨h, rfl, rfl⟩
  disk _ _ _ _ _ := rfl
  data _ := id

structure Keep (G : Goals) (t : Tid) (w w' : W) : Prop where
  lock : ∀ l, w.st.locks l = some t ↔ w'.st.locks l = some t
  frame : ∀ f, w.st.holder f = some t → w'.st.frames f = w.st.frames f
  proc : w'.st.procs t = w.st.procs t
  table : w'.st.tables t = w.st.tables t
  claim : ∀ k, w.aux.claim k = some t → w'.aux.claim k = some t
  mem : w'.aux.mem t = w.aux.mem t
  pte : ∀ a, PteLe (w.st.pte t a) (w'.st.pte t a)
  own : ∀ p r, w.st.pages p = some r → r.thread = t →
    (∃ r', w'.st.pages p = some r' ∧ Evolves r r') ∧ w'.aux.givenUp p = w.aux.givenUp p
  held : ∀ f p r, w.st.holder f = some t → w.st.frames f = some p → w.st.pages p = some r →
    r.frame = some f → HeldSame G f p r w w'
  /-- A page comes into a frame only while the frame is locked by its owner. -/
  away : ∀ f p, w.st.holder f = some t → (∀ r, w.st.pages p = some r → r.frame ≠ some f) →
    ∀ r, w'.st.pages p = some r → r.frame ≠ some f
  size : w'.st.swapSize = w.st.swapSize
  slot : w.st.locks .swap = some t → ∀ k, w.st.swapUsed k = false → w'.st.swapUsed k = false
  kept : ∀ g, Kept w.st.files w.st.procs g → Kept w'.st.files w'.st.procs g
  bin : ∀ g, (w.st.procs t).binFile = some g → w'.st.files g = w.st.files g
  backing : ∀ p r, w.st.pages p = some r → r.thread = t → r.isMmap = false →
    w'.st.backing r = w.st.backing r

theorem Keep.refl (G : Goals) (t : Tid) (w : W) : Keep G t w w where
  lock _ := Iff.rfl
  frame _ _ := rfl
  proc := rfl
  table := rfl
  claim _ := id
  mem := rfl
  pte _ := .refl _
  own _ r h _ := ⟨⟨r, h, .refl r⟩, rfl⟩
  held f _ _ _ _ hp _ := .refl G f hp
  away _ _ _ := id
  size := rfl
  slot _ _ := id
  kept _ := id
  bin _ _ := rfl
  backing _ _ _ _ _ := rfl

/-- A step of process `u` that the others may be exposed to. -/
abbrev Moves (G : Goals) (u : Tid) (w w' : W) : Prop := Inv G w' ∧ ∀ t, t ≠ u → Keep G t w w'

/-- Such a step after which `P` holds. -/
abbrev MovesTo (G : Goals) (u : Tid) (w w' : W) (P : W → Prop) : Prop :=
  Inv G w' ∧ (∀ t, t ≠ u → Keep G t w w') ∧ P w'

theorem stays {G : Goals} {u : Tid} {w : W} {p : Prop} (hi : Inv G w) (h : p) :
    Inv G w ∧ (∀ t, t ≠ u → Keep G t w w) ∧ p := ⟨hi, fun _ _ => Keep.refl .., h⟩

/-! ## The logic -/

/-- Condition on an action of a run for the data of user pages. -/
def DataOk (_ : Tid) (l : Lbl) (e : Option Nat) (s : St) : Prop :=
  match l with
  | .clearPage p => ∀ r, s.pages p = some r →
      r.file.isSome ∨ (s.pte r.thread r.addr).dirty = false
  | .swapFull p => ∀ r f, s.pages p = some r → r.file = none → r.frame = some f →
      ∀ o < pgSize, s.ram f o = 0
  | .setPage p => ∀ r, s.pages p = some r → r.file.isSome →
      r.isMmap = true ∨ (s.pte r.thread r.addr).dirty = false
  | .readFile _ => e.isSome
  | _ => True

/-- No page is freed while it has a swap slot. -/
def LeakOk (_ : Tid) (l : Lbl) (_ : Option Nat) (s : St) : Prop :=
  match l with
  | .freePage p => ∀ r, s.pages p = some r → r.sector = none
  | _ => True

/-- A file that is not empty is mapped below `PHYS_BASE`. -/
def RangeOk (_ : Tid) (l : Lbl) (_ : Option Nat) (s : St) : Prop :=
  match l with
  | .mapRange addr g => addr < physBase ∨ ∀ F, s.files g = some F → (s.inodes F.inode).length = 0
  | _ => True

/-- What holds when the action labelled `l` is next: `swap_in` has read back
what was swapped out. -/
def Restored (l : Lbl) (w : W) : Prop :=
  match l with
  | .clearSector p => ∀ o < pgSize, w.st.frameBytes p o = w.aux.saved p o
  | _ => True

/-- Between two requests no page of a process has handed back its frame. -/
def AtRest (t : Tid) (w : W) : Prop := ∀ p ∈ w.st.table t, w.aux.givenUp p = false

abbrev logic (G : Goals) : Logic kernel where
  Inv := Inv G
  Guar u w w' := ∀ t, t ≠ u → Keep G t w w'
  ok t l e s := (G.data → DataOk t l e s) ∧ (G.leak → LeakOk t l e s) ∧ (G.range → RangeOk t l e s)
  Holds _ l w := Restored l w
  Rest := AtRest
  tol p := p ≠ .ptePresent ∧ p ≠ .freed ∧ (G.data → p ≠ .nullFile)

end Pintos.Vm
