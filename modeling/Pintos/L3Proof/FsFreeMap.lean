import Pintos.L3Proof.FsTransfer

/-!
# The free map

What `free_map_allocate` and `free_map_release` do to the map in memory and
to its file. The file is written after each change; only an allocation that
fails can leave it behind the map.
-/
namespace Pintos.Fs

open Pintos.Core List

/-! ## The sectors of an inode -/

/-- Sector `x` holds data of the inode. -/
def DiskInode.Data (d : DiskInode) (x : Nat) : Prop := d.start ≤ x ∧ x < d.start + d.sectors

/-- The inode's data lies on a device of `dev` sectors. The length leaves
`bytes_to_sectors` without overflow. -/
structure DiskInode.OnDevice (d : DiskInode) (dev : Nat) : Prop where
  small : d.length + (sectorSize - 1) < 2 ^ 31
  le_dev : d.start + d.sectors ≤ dev

variable {n cnt x : Nat} {b : Nat → Bool} {s : St} {i : Inode}

theorem bytesToSectors_of_small (h : n + (sectorSize - 1) < 2 ^ 31) :
    bytesToSectors n = (n + (sectorSize - 1)) / sectorSize := if_pos h

namespace DiskInode.OnDevice

variable {d : DiskInode} {dev : Nat} (h : d.OnDevice dev)
include h

theorem sectors_eq : d.sectors = (d.length + (sectorSize - 1)) / sectorSize := bytesToSectors_of_small h.small

theorem lt_dev {x : Nat} (hx : d.Data x) : x < dev := Nat.lt_of_lt_of_le hx.2 h.le_dev

theorem data_of_lt {k : Nat} (hk : k < d.length) : d.Data (d.start + k / sectorSize) := by
  refine ⟨Nat.le_add_right _ _, ?_⟩
  rw [h.sectors_eq]
  simp only [sectorSize]
  omega

theorem fits : d.Fits dev := fun _ hk => h.lt_dev (h.data_of_lt hk)

/-- A write inside the file leaves other sectors alone. -/
theorem writeBytes_of_not_data {disk : Nat → Block} {ofs : Nat} {bs : List Byte}
    (hle : ofs + bs.length ≤ d.length) {x : Nat} (hx : ¬ d.Data x) :
    writeBytes disk d.start ofs bs x = disk x := by
  refine writeBytes_of_outside ?_
  simp only [DiskInode.Data, h.sectors_eq] at hx
  simp only [sectorSize] at *
  omega

end DiskInode.OnDevice

/-! ## Bitmaps -/

theorem bitmapContains_eq_false {start : Nat} {value : Bool} :
    bitmapContains b start cnt value = false ↔ ∀ y, start ≤ y → y < start + cnt → b y ≠ value := by
  simp only [bitmapContains, any_eq_false, mem_range, beq_iff_eq]
  constructor
  · intro h y h1 h2
    have := h (y - start) (by omega)
    rwa [Nat.add_sub_cancel' h1] at this
  · exact fun h j hj => h (start + j) (by omega) (by omega)

/-- A scan finds a free run. -/
theorem bitmapScan_some (h : bitmapScan b n cnt = some x) :
    x + cnt ≤ n ∧ ∀ y, x ≤ y → y < x + cnt → b y = false := by
  unfold bitmapScan at h
  split at h
  next hle =>
    have hx := mem_of_find?_eq_some h
    rw [mem_range] at hx
    have hfree := find?_some h
    rw [Bool.not_eq_true', bitmapContains_eq_false] at hfree
    exact ⟨by omega, fun y h1 h2 => Bool.eq_false_of_not_eq_true (hfree y h1 h2)⟩
  next => cases h

/-- A scan fails when there is no free run. -/
theorem bitmapScan_none (h : bitmapScan b n cnt = none) (hx : x + cnt ≤ n) :
    ∃ y, x ≤ y ∧ y < x + cnt ∧ b y = true := by
  unfold bitmapScan at h
  rw [if_pos (by omega), find?_eq_none] at h
  have := h x (mem_range.mpr (by omega))
  by_contra hno
  push Not at hno
  refine this ?_
  rw [Bool.not_eq_true', bitmapContains_eq_false]
  exact fun y h1 h2 hy => hno y h1 h2 hy

theorem bitmapSetMultiple_apply (b : Nat → Bool) (start cnt : Nat) (value : Bool) (y : Nat) :
    bitmapSetMultiple b start cnt value y = if start ≤ y ∧ y < start + cnt then value else b y := rfl

/-- Setting a run and clearing it again. -/
theorem bitmapSetMultiple_undo {start : Nat}
    (h : ∀ y, start ≤ y → y < start + cnt → b y = false) :
    bitmapSetMultiple (bitmapSetMultiple b start cnt true) start cnt false = b := by
  funext y
  simp only [bitmapSetMultiple_apply]
  split
  next hy => exact (h y hy.1 hy.2).symm
  next => rfl

@[simp] theorem length_bitmapBytes (b : Nat → Bool) (n : Nat) : (bitmapBytes b n).length = byteCnt n := by
  simp [bitmapBytes]

theorem le_byteCnt (n : Nat) : n ≤ 8 * byteCnt n := by
  simp only [byteCnt]
  omega

/-- A bitmap is read back from its bytes. -/
theorem bitmapOfBytes_bitmapBytes (b : Nat → Bool) (n i : Nat) :
    bitmapOfBytes (bitmapBytes b n) n i = (decide (i < n) && b i) := by
  unfold bitmapOfBytes
  by_cases hi : i < n
  · have hlt : i / 8 < byteCnt n := by have := le_byteCnt n; omega
    have : (bitmapBytes b n).getD (i / 8) 0 = packByte fun j => b (8 * (i / 8) + j) := by
      simp [bitmapBytes, getD_eq_getElem?_getD, hlt]
    rw [this, bitOf_packByte _ (Nat.mod_lt _ (by decide)), Nat.div_add_mod]
  · simp [hi]

/-! ## The file of the map -/

/-- `i` is the inode of the open file of the map. -/
structure St.MapInode (s : St) (i : Inode) : Prop where
  file : ∃ g f, s.freeMapFile = some g ∧ s.files g = some f ∧ s.inodes f.inode = some i
  writable : i.denyWriteCnt = 0
  length : i.data.length = byteCnt s.devSize
  onDevice : i.data.OnDevice s.devSize

/-- The bytes in the data that starts at `start` decode to the map. -/
def Stored (disk : Nat → Block) (start dev : Nat) (b : Nat → Bool) : Prop :=
  ∀ i < dev, bitmapOfBytes (readBytes disk start 0 (byteCnt dev)) dev i = b i

/-- Only the map, now `b`, the data of its file and outcomes of allocations
differ. -/
structure Saved (d : DiskInode) (b : Nat → Bool) (s s' : St) : Prop where
  rest : s' = ((s.setFreeMap b).setDisk s'.disk).setMem s'.mem
  disk : ∀ x, ¬ d.Data x → s'.disk x = s.disk x
  mem : s.mem = [] → s'.mem = []

theorem readBytes_writeBytes (disk : Nat → Block) (start dev : Nat) (b : Nat → Bool) :
    readBytes (writeBytes disk start 0 (bitmapBytes b dev)) start 0 (byteCnt dev) = bitmapBytes b dev := by
  refine ext_getElem (by simp) fun j h1 h2 => ?_
  have hj : j < byteCnt dev := by simpa using h1
  have := getD_readBytes (writeBytes disk start 0 (bitmapBytes b dev)) start 0 _ hj
  rw [byteOf_writeBytes, if_pos (by rw [length_bitmapBytes]; omega), Nat.zero_add, Nat.sub_zero] at this
  rwa [getD_eq_getElem _ _ h1, getD_eq_getElem _ _ h2] at this

theorem stored_writeBytes (disk : Nat → Block) (start dev : Nat) (b : Nat → Bool) :
    Stored (writeBytes disk start 0 (bitmapBytes b dev)) start dev b := fun i hi => by
  rw [readBytes_writeBytes, bitmapOfBytes_bitmapBytes, decide_eq_true hi, Bool.true_and]

theorem ok_bitmapWrite (hi : s.MapInode i) :
    Ok (bitmapWrite s.freeMapFile) s fun ok s' => Saved i.data s.freeMap s s' ∧
      (ok = true → Stored s'.disk i.data.start s.devSize s.freeMap) ∧ (s.mem = [] → ok = true) := by
  obtain ⟨g, f, hg, hf, hp⟩ := hi.file
  unfold bitmapWrite
  rw [hg]
  dsimp only
  rw [ok_bind, ok_fsGet, ok_bind]
  unfold fileWriteAt
  rw [ok_bind, ok_fileAt hf]
  refine (ok_inodeWriteAt hp hi.writable hi.onDevice.fits fun _ => Int.le_refl 0).mono ?_
  rintro k s' ⟨m', rfl, hu⟩
  rw [length_bitmapBytes, hi.length, Int.toNat_zero, Nat.sub_zero, Nat.min_self] at hu
  refine (ok_pure _).mpr ⟨⟨rfl, fun x hx => ?_, fun hm => (hu.full hm).2⟩, fun hk => ?_, fun hm => ?_⟩
  · refine hi.onDevice.writeBytes_of_not_data ?_ hx
    rw [length_take, length_bitmapBytes, hi.length]
    omega
  · rw [decide_eq_true_eq] at hk
    have : (bitmapBytes s.freeMap s.devSize).take k = bitmapBytes s.freeMap s.devSize :=
      take_of_length_le (by rw [length_bitmapBytes]; omega)
    rw [this]
    exact stored_writeBytes _ _ _ _
  · rw [decide_eq_true_eq]
    exact (hu.full hm).1

theorem St.MapInode.setFreeMap (h : s.MapInode i) (b : Nat → Bool) :
    (s.setFreeMap b).MapInode i := ⟨h.file, h.writable, h.length, h.onDevice⟩

theorem Saved.mapInode {s' : St} {d : DiskInode} (h : Saved d b s s')
    (hi : s.MapInode i) : s'.MapInode i := by
  rw [h.rest]
  exact ⟨hi.file, hi.writable, hi.length, hi.onDevice⟩

/-- `free_map_allocate` takes the first free run, or nothing. -/
theorem ok_freeMapAllocate (hi : s.MapInode i) (cnt : Nat) :
    Ok (freeMapAllocate cnt) s fun r s' =>
      match r with
      | none => Saved i.data s.freeMap s s' ∧
          (s.mem = [] → bitmapScan s.freeMap s.devSize cnt = none ∧ s' = s)
      | some x => bitmapScan s.freeMap s.devSize cnt = some x ∧
          Saved i.data (bitmapSetMultiple s.freeMap x cnt true) s s' ∧
          Stored s'.disk i.data.start s.devSize s'.freeMap := by
  obtain ⟨g, f, hg, hf, hp⟩ := hi.file
  unfold freeMapAllocate
  rw [ok_bind, ok_fsGet]
  cases hscan : bitmapScan s.freeMap s.devSize cnt with
  | none => exact (ok_pure _).mpr ⟨⟨rfl, fun _ _ => rfl, id⟩, fun _ => ⟨rfl, rfl⟩⟩
  | some x =>
    dsimp only
    rw [ok_bind, ok_fsModify, hg]
    dsimp only
    rw [ok_bind, ← hg]
    have hw := ok_bitmapWrite (hi.setFreeMap (bitmapSetMultiple s.freeMap x cnt true))
    refine hw.mono ?_
    rintro ok s' ⟨hs, hst, hok⟩
    have hsaved : Saved i.data (bitmapSetMultiple s.freeMap x cnt true) s s' := ⟨hs.rest, hs.disk, hs.mem⟩
    cases ok with
    | true =>
      refine (ok_pure _).mpr ⟨rfl, hsaved, ?_⟩
      have := hst rfl
      rw [hs.rest]
      exact this
    | false =>
      rw [if_neg (by decide), ok_bind, ok_fsModify]
      refine (ok_pure _).mpr ⟨⟨?_, hs.disk, hs.mem⟩, fun hm => ?_⟩
      · have hundo := bitmapSetMultiple_undo (bitmapScan_some hscan).2
        rw [hs.rest]
        change (((s.setFreeMap (bitmapSetMultiple (bitmapSetMultiple s.freeMap x cnt true) x cnt false)).setDisk
          _).setMem _) = _
        rw [hundo]
        rfl
      · cases hok hm

/-- `free_map_release` clears a run that is used. -/
theorem ok_freeMapRelease (hi : s.MapInode i) (hdev : x + n ≤ s.devSize)
    (hused : ∀ y, x ≤ y → y < x + n → s.freeMap y = true) :
    Ok (freeMapRelease x n) s fun _ s' => Saved i.data (bitmapSetMultiple s.freeMap x n false) s s' ∧
      (s.mem = [] → Stored s'.disk i.data.start s.devSize s'.freeMap) := by
  unfold freeMapRelease
  have hall : bitmapContains s.freeMap x n false = false :=
    bitmapContains_eq_false.mpr fun y h1 h2 => by rw [hused y h1 h2]; decide
  rw [ok_bind, ok_fsGet, if_pos ⟨hdev, hall⟩, ok_bind, ok_fsModify, ok_bind]
  have hw := ok_bitmapWrite (hi.setFreeMap (bitmapSetMultiple s.freeMap x n false))
  refine hw.mono ?_
  rintro ok s' ⟨hs, hst, hok⟩
  refine (ok_pure _).mpr ⟨⟨hs.rest, hs.disk, hs.mem⟩, fun hm => ?_⟩
  have := hst (hok hm)
  rw [hs.rest]
  exact this

end Pintos.Fs
