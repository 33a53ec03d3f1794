import Pintos.Core.Ownership
import Pintos.L3Proof.FsFreeMap

/-!
# The invariant of the file system

`Heap` is about the open inodes and files in memory: one `struct inode` for
each sector, counts that are the numbers of references. During a call a
directory or an inode may be held without a file; `e p` is the number of such
references to inode `p`. `Layout` is about the device: the live inodes own
disjoint sectors that are marked used.
-/
namespace Pintos.Fs

open Pintos.Core

/-! ## What is on the device -/

/-- The inode stored in sector `x`. -/
def St.dinode (s : St) (x : Nat) : DiskInode := readInode (s.disk x)

/-- The inode of the root directory. -/
def St.root (s : St) : DiskInode := s.dinode rootDirSector

/-- `do_format` makes a directory of 16 entries. -/
def dirEntries : Nat := 16

/-- Entry `k` of the root directory. -/
def St.slot (s : St) (k : Nat) : Entry := readEntry fun o => byteOf s.disk s.root.start (k * entrySize + o)

/-- An entry in use names the inode in sector `x`. -/
def St.Named (s : St) (x : Nat) : Prop :=
  ∃ k < dirEntries, (s.slot k).inUse = true ∧ (s.slot k).inodeSector = x

/-- The inode in sector `x` is open. -/
def St.Open (s : St) (x : Nat) : Prop := ∃ p i, s.inodes p = some i ∧ i.sector = x

/-- The sectors of live inodes: the free-map file, the root directory, those
named by an entry in use and those that are open. -/
def St.live (s : St) : Set Nat := {x | x = freeMapSector ∨ x = rootDirSector ∨ s.Named x ∨ s.Open x}

/-- The inode sector `x` and the data sectors of the inode in it. -/
def St.extent (s : St) (x : Nat) : Set Nat := {z | z = x ∨ (s.dinode x).Data z}

/-- The sectors marked used in the free map. -/
def St.used (s : St) : Set Nat := {z | s.freeMap z = true}

structure Layout (s : St) : Prop where
  devSize : s.devSize < maxSectors
  owned : Owned s.live s.extent s.used
  apart : ∀ x ∈ s.live, ¬ (s.dinode x).Data x
  lt_dev : ∀ x ∈ s.live, x < s.devSize
  onDevice : ∀ x ∈ s.live, (s.dinode x).OnDevice s.devSize
  data : ∀ p i, s.inodes p = some i → i.data = s.dinode i.sector
  rootLength : s.root.length = dirEntries * entrySize
  mapLength : (s.dinode freeMapSector).length = byteCnt s.devSize
  slots : ∀ j k, j < dirEntries → k < dirEntries → (s.slot j).inUse = true → (s.slot k).inUse = true →
    (s.slot j).inodeSector = (s.slot k).inodeSector → j = k
  named : ∀ x, s.Named x → x ≠ freeMapSector ∧ x ≠ rootDirSector
  removed : ∀ p i, s.inodes p = some i → i.removed = true →
    i.sector ≠ freeMapSector ∧ i.sector ≠ rootDirSector ∧ ¬ s.Named i.sector

/-! ## What is in memory -/

/-- The number of files on inode `p`. -/
def St.refs (s : St) (p : Nat) : Nat := count s.files (fun f => f.inode == p) s.brk

/-- The number of files on inode `p` that deny writes. -/
def St.denies (s : St) (p : Nat) : Nat := count s.files (fun f => f.inode == p && f.denyWrite) s.brk

structure Heap (s : St) (e : Nat → Nat) : Prop where
  nodup : s.openInodes.Nodup
  mem_open : ∀ p, p ∈ s.openInodes ↔ ∃ i, s.inodes p = some i
  inj : ∀ p q i j, s.inodes p = some i → s.inodes q = some j → i.sector = j.sector → p = q
  openCnt : ∀ p i, s.inodes p = some i → i.openCnt = s.refs p + e p ∧ 0 < i.openCnt
  denyCnt : ∀ p i, s.inodes p = some i → i.denyWriteCnt = s.denies p
  file : ∀ g f, s.files g = some f → ∃ i, s.inodes f.inode = some i ∧ i.sector ≠ rootDirSector ∧
    (i.sector = freeMapSector → s.freeMapFile = some g)
  extra : ∀ p, s.inodes p = none → e p = 0
  below : ∀ g, s.brk ≤ g → s.inodes g = none ∧ s.files g = none
  map : ∃ g f i, s.freeMapFile = some g ∧ s.files g = some f ∧ f.denyWrite = false ∧
    s.inodes f.inode = some i ∧ i.sector = freeMapSector

/-- The file system is well formed while `e p` references to inode `p` are held
outside files. -/
structure Wf (s : St) (e : Nat → Nat) : Prop where
  heap : Heap s e
  layout : Layout s

/-! ## Entries -/

theorem readEntry_congr {b b' : Nat → Byte} (h : ∀ o < entrySize, b' o = b o) : readEntry b' = readEntry b := by
  have hw : wordAt b' 0 = wordAt b 0 := wordAt_congr fun i hi => h (0 + i) (by simp only [entrySize]; omega)
  have hn : (List.range (nameMax + 1)).map (fun i => b' (4 + i)) = (List.range (nameMax + 1)).map fun i => b (4 + i) :=
    List.map_congr_left fun i hi => by
      rw [List.mem_range] at hi
      exact h (4 + i) (by simp only [entrySize, nameMax] at *; omega)
  simp only [readEntry, hw, hn, h 19 (by decide)]

/-- A whole entry as `inode_read_at` returns it. -/
theorem entryOf_readBytes (disk : Nat → Block) (start ofs : Nat) :
    entryOf (readBytes disk start ofs entrySize) = readEntry fun o => byteOf disk start (ofs + o) :=
  readEntry_congr fun _ ho => getD_readBytes disk start ofs entrySize ho

/-! ## Layout -/

namespace St

theorem map_mem (s : St) : freeMapSector ∈ s.live := .inl rfl

theorem root_mem (s : St) : rootDirSector ∈ s.live := .inr (.inl rfl)

theorem named_mem {s : St} {x : Nat} (hx : s.Named x) : x ∈ s.live := .inr (.inr (.inl hx))

theorem open_mem {s : St} {p : Nat} {i : Inode} (hi : s.inodes p = some i) : i.sector ∈ s.live :=
  .inr (.inr (.inr ⟨p, i, hi, rfl⟩))

end St

namespace Layout

variable {s s' : St} (h : Layout s)
include h

/-- The bytes of an entry lie in the data of the directory. -/
theorem slot_data {k o : Nat} (hk : k < dirEntries) (ho : o < entrySize) :
    s.root.Data (s.root.start + (k * entrySize + o) / sectorSize) := by
  refine (h.onDevice _ s.root_mem).data_of_lt ?_
  change _ < s.root.length
  rw [h.rootLength]
  simp only [dirEntries, entrySize] at *
  omega

/-- No inode lies in the data of another, or its own. -/
theorem not_data {x y : Nat} (hx : x ∈ s.live) (hy : y ∈ s.live) : ¬ (s.dinode x).Data y := by
  intro hd
  obtain rfl : x = y := h.owned.eq_of_mem hx hy (.inr hd) (.inl rfl)
  exact h.apart x hx hd

/-- Data belongs to one inode. -/
theorem data_disjoint {x y z : Nat} (hx : x ∈ s.live) (hy : y ∈ s.live) (hne : x ≠ y)
    (hz : (s.dinode x).Data z) : ¬ (s.dinode y).Data z :=
  fun hz' => hne (h.owned.eq_of_mem hx hy (.inr hz) (.inr hz'))

theorem used_of_mem {x z : Nat} (hx : x ∈ s.live) (hz : z ∈ s.extent x) : s.freeMap z = true :=
  h.owned.sub x hx hz

/-- Entries stay when the directory's inode and data do. -/
theorem slot_eq (hroot : s'.disk rootDirSector = s.disk rootDirSector)
    (hdata : ∀ z, s.root.Data z → s'.disk z = s.disk z) {k : Nat} (hk : k < dirEntries) :
    s'.slot k = s.slot k := by
  have hr : s'.root = s.root := by simp only [St.root, St.dinode, hroot]
  refine readEntry_congr fun o ho => ?_
  rw [hr]
  exact congrFun (hdata _ (h.slot_data hk ho)) _

theorem named_iff (hroot : s'.disk rootDirSector = s.disk rootDirSector)
    (hdata : ∀ z, s.root.Data z → s'.disk z = s.disk z) (x : Nat) : s'.Named x ↔ s.Named x :=
  exists_congr fun k => and_congr_right fun hk => by rw [h.slot_eq hroot hdata hk]

/-- The same inodes are live when the directory stays and the same are open. -/
theorem live_eq (hino : s'.inodes = s.inodes) (hroot : s'.disk rootDirSector = s.disk rootDirSector)
    (hdata : ∀ z, s.root.Data z → s'.disk z = s.disk z) : s'.live = s.live := by
  ext x
  simp only [St.live, Set.mem_ofPred_eq, h.named_iff hroot hdata, St.Open, hino]

/-- The layout stays when nothing but open inodes, data outside the directory
and marks outside the live inodes change. -/
theorem frame (hdev : s'.devSize = s.devSize)
    (hino : ∀ p i, s'.inodes p = some i → i.sector ∈ s.live ∧ i.data = s.dinode i.sector ∧
      (i.removed = true → i.sector ≠ freeMapSector ∧ i.sector ≠ rootDirSector ∧ ¬ s.Named i.sector))
    (hdisk : ∀ x ∈ s.live, s'.disk x = s.disk x) (hroot : ∀ z, s.root.Data z → s'.disk z = s.disk z)
    (hused : ∀ x, x = freeMapSector ∨ x = rootDirSector ∨ s.Named x ∨ s'.Open x →
      ∀ z ∈ s.extent x, s'.freeMap z = true) : Layout s' := by
  have hslot : ∀ k < dirEntries, s'.slot k = s.slot k :=
    fun k hk => h.slot_eq (hdisk _ s.root_mem) hroot hk
  have hnamed := h.named_iff (hdisk _ s.root_mem) hroot
  have hlive : s'.live ⊆ s.live := by
    rintro x (hx | hx | hx | ⟨p, i, hi, rfl⟩)
    · exact .inl hx
    · exact .inr (.inl hx)
    · exact .inr (.inr (.inl ((hnamed x).mp hx)))
    · exact (hino p i hi).1
  have hdin : ∀ x ∈ s.live, s'.dinode x = s.dinode x := fun x hx => by
    simp only [St.dinode, hdisk x hx]
  have hext : ∀ x ∈ s'.live, s'.extent x = s.extent x := fun x hx => by
    simp only [St.extent, hdin x (hlive hx)]
  exact {
    devSize := hdev ▸ h.devSize
    owned := h.owned.mono hlive hext fun x hx => hused x (by
      rcases hx with hx | hx | hx | hx
      · exact .inl hx
      · exact .inr (.inl hx)
      · exact .inr (.inr (.inl ((hnamed x).mp hx)))
      · exact .inr (.inr (.inr hx)))
    apart := fun x hx => by rw [hdin x (hlive hx)]; exact h.apart x (hlive hx)
    lt_dev := fun x hx => by rw [hdev]; exact h.lt_dev x (hlive hx)
    onDevice := fun x hx => by rw [hdev, hdin x (hlive hx)]; exact h.onDevice x (hlive hx)
    data := fun p i hi => by rw [hdin _ (hino p i hi).1]; exact (hino p i hi).2.1
    rootLength := (congrArg DiskInode.length (hdin _ s.root_mem)).trans h.rootLength
    mapLength := by rw [hdin _ s.map_mem, hdev]; exact h.mapLength
    slots := fun j k hj hk => by rw [hslot j hj, hslot k hk]; exact h.slots j k hj hk
    named := fun x hx => h.named x ((hnamed x).mp hx)
    removed := fun p i hi hr => by rw [hnamed]; exact (hino p i hi).2.2 hr }

end Layout

end Pintos.Fs
