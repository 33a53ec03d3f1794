import Pintos.L3Proof.FsDir

/-!
# `inode_create` and `filesys_create`

`filesys_create` reserves a sector for the inode, creates the inode with its
data and adds an entry. Each step may fail; what has been done by then and
undone again is followed through all of them.
-/
namespace Pintos.Fs

open Pintos.Core Function

/-- Only sectors in `R` may differ, and the file of the map follows the map. -/
structure Touch (R : Nat → Prop) (s s' : St) : Prop where
  devSize : s'.devSize = s.devSize
  mapFile : s'.freeMapFile = s.freeMapFile
  disk : ∀ z, ¬ R z → s'.disk z = s.disk z
  mem : s.mem = [] → s'.mem = []
  synced : s.mem = [] → s.Synced → s'.Synced

section
variable {s s' s'' : St} {e : Nat → Nat} {R : Nat → Prop}

theorem Touch.trans (h : Touch R s s') (h' : Touch R s' s'') : Touch R s s'' where
  devSize := h'.devSize.trans h.devSize
  mapFile := h'.mapFile.trans h.mapFile
  disk z hz := (h'.disk z hz).trans (h.disk z hz)
  mem hm := h'.mem (h.mem hm)
  synced hm hs := h'.synced (h.mem hm) (h.synced hm hs)

theorem Touch.calm (h : Touch R s s') (hc : Calm s' s'') (hd : s''.disk = s'.disk) : Touch R s s'' :=
  h.trans ⟨hc.devSize, hc.mapFile, fun z _ => congrFun hd z, hc.mem, hc.synced⟩

theorem Layout.root_not_map (hl : Layout s) : ∀ z ∈ s.extent rootDirSector, ¬ (s.dinode freeMapSector).Data z := by
  rintro z (rfl | hz)
  · exact hl.not_data s.map_mem s.root_mem
  · exact hl.data_disjoint s.root_mem s.map_mem (by decide) hz

theorem Calm.touch (h : Calm s s') (hR : ∀ z, (s.dinode freeMapSector).Data z → R z) : Touch R s s' :=
  ⟨h.devSize, h.mapFile, fun z hz => h.disk z fun hd => hz (hR z hd), h.mem, h.synced⟩

/-- The map is on disk when neither the map nor its file changes. -/
theorem Layout.synced_of (hl : Layout s) (hdev : s'.devSize = s.devSize) (hmap : s'.freeMap = s.freeMap)
    (hdisk : ∀ z ∈ s.extent freeMapSector, s'.disk z = s.disk z) (hs : s.Synced) : s'.Synced := by
  have hdin : s'.dinode freeMapSector = s.dinode freeMapSector := by
    simp only [St.dinode, hdisk freeMapSector (.inl rfl)]
  have hread : readBytes s'.disk (s.dinode freeMapSector).start 0 (byteCnt s.devSize) =
      readBytes s.disk (s.dinode freeMapSector).start 0 (byteCnt s.devSize) := by
    refine readBytes_congr fun j hj => ?_
    rw [Nat.zero_add]
    refine congrFun (hdisk _ (.inr ((hl.onDevice _ s.map_mem).data_of_lt ?_))) _
    rw [hl.mapLength]
    exact hj
  unfold St.Synced Stored at *
  rwa [hdin, hdev, hmap, hread]

/-- `Calm` keeps the entries of the directory. -/
theorem Calm.slot_eq (h : Calm s s') (hl : Layout s) {k : Nat} (hk : k < dirEntries) : s'.slot k = s.slot k :=
  hl.slot_eq (h.disk _ (hl.root_not_map _ (.inl rfl))) (fun z hz => h.disk z (hl.root_not_map z (.inr hz))) hk

theorem Calm.has_iff (h : Calm s s') (hl : Layout s) {name : Name} {k : Nat} (hk : k < dirEntries) :
    s'.Has name k ↔ s.Has name k := by
  simp only [St.Has, h.slot_eq hl hk]

end

/-! ## Inodes on disk -/

/-- A stored inode is read back. -/
theorem readInode_block {d : DiskInode} (hs : d.start < 2 ^ 32) (hn : d.length < 2 ^ 32) {b : Block}
    (hb : ∀ o < 8, b o = d.block o) : readInode b = d := by
  have h1 : wordAt b 0 = d.start := wordAt_of_byteAt hs fun i hi => by
    rw [Nat.zero_add, hb i (by omega), DiskInode.block, if_pos hi]
  have h2 : wordAt b 4 = d.length := wordAt_of_byteAt hn fun i hi => by
    rw [hb (4 + i) (by omega), DiskInode.block, if_neg (by omega), if_pos (by omega), Nat.add_sub_cancel_left]
  simp only [readInode, h1, h2]

/-- Data that finds room is small enough for `bytes_to_sectors`. -/
theorem small_of_sectors {n : Nat} (h : bytesToSectors n < maxSectors) : n + (sectorSize - 1) < 2 ^ 31 := by
  by_contra hbig
  rw [bytesToSectors, if_neg hbig] at h
  simp only [maxSectors, sectorSize] at *
  omega

theorem ok_zeroLoop {s : St} : ∀ (n st : Nat) (disk : Nat → Block), st + n ≤ s.devSize →
    Ok (zeroLoop n st) (s.setDisk disk) fun _ s' => ∃ disk', s' = s.setDisk disk' ∧
      (∀ z, ¬ (st ≤ z ∧ z < st + n) → disk' z = disk z) ∧
      ∀ z, st ≤ z → z < st + n → ∀ o < sectorSize, disk' z o = 0 := by
  intro n
  induction n with
  | zero => exact fun st disk _ => (ok_pure _).mpr ⟨disk, rfl, fun _ _ => rfl, fun z h1 h2 => by omega⟩
  | succ n ih =>
    intro st disk hdev
    unfold zeroLoop
    rw [ok_bind, ok_blockWrite (s := s.setDisk disk) (by change st < s.devSize; omega)]
    refine (ih (st + 1) (putSector disk st fun _ => 0) (by omega)).mono ?_
    rintro _ s' ⟨disk', rfl, hout, hin⟩
    refine ⟨disk', rfl, fun z hz => ?_, fun z h1 h2 o ho => ?_⟩
    · rw [hout z (by omega), putSector, update_of_ne (by omega)]
    · by_cases hz : z = st
      · rw [hz, hout st (by omega), putSector, update_self, if_pos ho]
      · exact hin z (by omega) (by omega) o ho

/-- The inode is written to sector `x`, and zeros to its data. -/
abbrev NewInode (x st n : Nat) (disk disk' : Nat → Block) : Prop :=
  (∀ z, z ≠ x → ¬ (st ≤ z ∧ z < st + bytesToSectors n) → disk' z = disk z) ∧
    (∀ o < 8, disk' x o = DiskInode.block ⟨st, n⟩ o) ∧
    ∀ z, st ≤ z → z < st + bytesToSectors n → ∀ o < sectorSize, disk' z o = 0

theorem ok_storeInode {u : St} {x st n : Nat} (hx : x < u.devSize) (hdev : st + bytesToSectors n ≤ u.devSize)
    (hxr : ¬ (st ≤ x ∧ x < st + bytesToSectors n)) :
    Ok (do blockWrite x (DiskInode.block ⟨st, n⟩); zeroLoop (bytesToSectors n) st; pure true : M Bool) u
      fun ok s' => ok = true ∧ ∃ disk, s' = u.setDisk disk ∧ NewInode x st n u.disk disk := by
  rw [ok_bind, ok_blockWrite hx, ok_bind]
  refine (ok_zeroLoop (s := u) _ st _ hdev).mono ?_
  rintro _ s' ⟨disk, hs', hout, hzero⟩
  refine (ok_pure _).mpr ⟨rfl, disk, hs', fun z hne hr => ?_, fun o ho => ?_, hzero⟩
  · rw [hout z hr, putSector, update_of_ne hne]
  · rw [hout x hxr, putSector, update_self, if_pos (by simp only [sectorSize]; omega)]

/-! ## `inode_create` -/

section
variable {s : St} {e : Nat → Nat}

/-- Sector `x` is marked used and belongs to no live inode. -/
structure Reserved (s : St) (x : Nat) : Prop where
  lt_dev : x < s.devSize
  used : s.freeMap x = true
  free : ∀ y ∈ s.live, x ∉ s.extent y

/-- A sector that is not marked belongs to nobody. -/
theorem Layout.not_mem_extent (hl : Layout s) {z y : Nat} (hz : s.freeMap z = false) (hy : y ∈ s.live) :
    z ∉ s.extent y := fun h => by
  rw [hl.used_of_mem hy h] at hz
  cases hz

/-- The layout stays when nothing that a live inode owns changes, the data of
the map apart. -/
theorem Wf.congr (h : Wf s e) {b : Nat → Bool} {d : Nat → Block} {m : List Bool}
    (hdisk : ∀ y ∈ s.live, ∀ z ∈ s.extent y, ¬ (s.dinode freeMapSector).Data z → d z = s.disk z)
    (hb : ∀ y ∈ s.live, ∀ z ∈ s.extent y, b z = true) : Wf (((s.setFreeMap b).setDisk d).setMem m) e := by
  have hl := h.layout
  refine ⟨h.heap.congr b d m, hl.shrink rfl (fun _ j hj => ⟨j, hj, rfl, rfl, id⟩) (fun x hx => ?_) (fun z hz => ?_)
    fun x hx _ => hb x hx⟩
  · exact hdisk x hx x (.inl rfl) (hl.not_data s.map_mem hx)
  · exact hdisk _ s.root_mem z (.inr hz) (hl.data_disjoint s.root_mem s.map_mem (by decide) hz)

/-- A change of the map outside the live inodes, written to its file. -/
theorem Wf.saved (h : Wf s e) {s' : St} {b : Nat → Bool} (hs : Saved (s.dinode freeMapSector) b s s')
    (hb : ∀ y ∈ s.live, ∀ z ∈ s.extent y, b z = true) : Wf s' e := by
  have := h.congr (b := b) (d := s'.disk) (m := s'.mem) (fun _ _ z _ hz => hs.disk z hz) hb
  rw [hs.rest]
  exact this

theorem content_zero {disk : Nat → Block} {st n : Nat}
    (h : ∀ z, st ≤ z → z < st + (n + (sectorSize - 1)) / sectorSize → ∀ o < sectorSize, disk z o = 0) :
    readBytes disk st 0 n = List.replicate n 0 := by
  refine List.eq_replicate_iff.mpr ⟨length_readBytes .., fun b hb => ?_⟩
  obtain ⟨j, hj, rfl⟩ := List.mem_map.mp hb
  rw [List.mem_range] at hj
  refine h _ (Nat.le_add_right ..) ?_ _ (Nat.mod_lt _ (by simp [sectorSize]))
  rw [Nat.zero_add]
  simp only [sectorSize]
  omega

/-- A new inode in a reserved sector `x`, with data in a free run. -/
theorem Wf.made (h : Wf s e) {x st n : Nat} (hx : Reserved s x)
    (hscan : bitmapScan s.freeMap s.devSize (bytesToSectors n) = some st) {disk : Nat → Block} (m : List Bool)
    (hout : ∀ z, ¬ (s.dinode freeMapSector).Data z → z ≠ x → ¬ (st ≤ z ∧ z < st + bytesToSectors n) →
      disk z = s.disk z)
    (hblock : ∀ o < 8, disk x o = DiskInode.block ⟨st, n⟩ o)
    (hzero : ∀ z, st ≤ z → z < st + bytesToSectors n → ∀ o < sectorSize, disk z o = 0) (s' : St)
    (hs' : s' = ((s.setFreeMap (bitmapSetMultiple s.freeMap st (bytesToSectors n) true)).setDisk disk).setMem m) :
    Wf s' e ∧ Fresh s' x ∧ s'.dinode x = ⟨st, n⟩ ∧ s'.content x = List.replicate n 0 := by
  have hl := h.layout
  obtain ⟨hdev, hfree⟩ := bitmapScan_some hscan
  have hmax := hl.devSize
  have hsmall : n + (sectorSize - 1) < 2 ^ 31 := small_of_sectors (by omega)
  -- what is live owns neither the inode's sector nor the new data
  have hkeep : ∀ y ∈ s.live, ∀ z ∈ s.extent y, ¬ (s.dinode freeMapSector).Data z → disk z = s.disk z := by
    intro y hy z hz hd
    refine hout z hd ?_ fun hr => hl.not_mem_extent (hfree z hr.1 hr.2) hy hz
    rintro rfl
    exact hx.free y hy hz
  have hmark : ∀ z, s.freeMap z = true → bitmapSetMultiple s.freeMap st (bytesToSectors n) true z = true := by
    intro z hz
    rw [bitmapSetMultiple_apply, hz, ite_self]
  have hw := h.congr (b := bitmapSetMultiple s.freeMap st (bytesToSectors n) true) (m := m) hkeep
    fun y hy z hz => hmark z (hl.used_of_mem hy hz)
  rw [← hs'] at hw
  have hdisk : s'.disk = disk := by rw [hs']; rfl
  have hdin : s'.dinode x = ⟨st, n⟩ := by
    unfold St.dinode
    rw [hdisk]
    simp only [maxSectors, sectorSize] at *
    exact readInode_block (d := ⟨st, n⟩) (by change st < _; omega) (by change n < _; omega) hblock
  have hlive : s'.live = s.live := hl.live_eq (by rw [hs']; rfl)
    (by rw [hdisk]; exact hkeep _ s.root_mem _ (.inl rfl) (hl.not_data s.map_mem s.root_mem))
    (fun z hz => by
      rw [hdisk]
      exact hkeep _ s.root_mem z (.inr hz) (hl.data_disjoint s.root_mem s.map_mem (by decide) hz))
  have hext : ∀ z, z ∈ s'.extent x ↔ z = x ∨ (st ≤ z ∧ z < st + bytesToSectors n) := fun z => by
    simp only [St.extent, hdin]
    rfl
  refine ⟨hw, ⟨fun y hy => ?_, fun z hz => ?_, ?_, ?_, ?_⟩, hdin, ?_⟩
  · rw [hlive] at hy
    refine Set.disjoint_left.mpr fun z hz hzy => ?_
    have hyd : s'.dinode y = s.dinode y := by
      simp only [St.dinode, hdisk, hkeep y hy y (.inl rfl) (hl.not_data s.map_mem hy)]
    simp only [St.extent, hyd] at hzy
    rcases (hext z).mp hz with rfl | hr
    · exact hx.free y hy hzy
    · exact hl.not_mem_extent (hfree z hr.1 hr.2) hy hzy
  · rw [hs']
    change bitmapSetMultiple s.freeMap st (bytesToSectors n) true z = true
    rcases (hext z).mp hz with rfl | hr
    · exact hmark z hx.used
    · rw [bitmapSetMultiple_apply, if_pos hr]
  · rw [hdin]
    intro hd
    have := hfree x hd.1 hd.2
    rw [hx.used] at this
    cases this
  · rw [hs']
    exact hx.lt_dev
  · rw [hdin, hs']
    exact ⟨hsmall, hdev⟩
  · unfold St.content
    rw [hdin, hdisk]
    rw [bytesToSectors_of_small hsmall] at hzero
    exact content_zero hzero

/-- `inode_create` in a reserved sector: nothing has changed, or the inode is
there with its data, all zero. -/
theorem ok_inodeCreate (h : Wf s e) {x : Nat} (hx : Reserved s x) (n : Nat) :
    Ok (inodeCreate x n) s fun ok s' => Wf s' e ∧ ∃ disk m', (s.mem = [] → m' = []) ∧
      match ok with
      | false => s' = (s.setDisk disk).setMem m' ∧
          (∀ z, ¬ (s.dinode freeMapSector).Data z → disk z = s.disk z) ∧
          (s.mem = [] → bitmapScan s.freeMap s.devSize (bytesToSectors n) = none ∧ disk = s.disk)
      | true => ∃ st, bitmapScan s.freeMap s.devSize (bytesToSectors n) = some st ∧
          s' = ((s.setFreeMap (bitmapSetMultiple s.freeMap st (bytesToSectors n) true)).setDisk disk).setMem m' ∧
          (∀ z, ¬ (s.dinode freeMapSector).Data z → z ≠ x → ¬ (st ≤ z ∧ z < st + bytesToSectors n) →
            disk z = s.disk z) ∧
          s'.Synced ∧ Fresh s' x ∧ s'.dinode x = ⟨st, n⟩ ∧ s'.content x = List.replicate n 0 := by
  have hl := h.layout
  unfold inodeCreate
  rw [if_neg (by omega), ok_bind, ok_malloc]
  have hmem : s.mem = [] → s.mem.tail = [] := fun hm => by rw [hm]; rfl
  cases hm : s.mem.headD true with
  | false =>
    rw [if_neg (by decide), ok_pure]
    exact ⟨h.setMem _, s.disk, s.mem.tail, hmem, rfl, fun _ _ => rfl, fun h0 => absurd h0 (mem_ne_nil hm)⟩
  | true =>
    rw [if_pos rfl, Int.toNat_natCast, ok_bind]
    have h0 := h.setMem s.mem.tail
    obtain ⟨mi, hmi, -, hmd⟩ := h0.mapInode
    refine (ok_freeMapAllocate hmi (bytesToSectors n)).mono ?_
    intro r u hr
    rw [hmd] at hr
    cases r with
    | none =>
      obtain ⟨hsaved, hfull⟩ := hr
      refine (ok_pure _).mpr ⟨h0.saved hsaved fun y hy z hz => hl.used_of_mem hy hz, u.disk, u.mem,
        fun h0 => hsaved.mem (hmem h0), hsaved.rest, hsaved.disk, fun hnil => ?_⟩
      obtain ⟨hscan, hu⟩ := hfull (hmem hnil)
      exact ⟨hscan, by rw [hu]; rfl⟩
    | some st =>
      obtain ⟨hscan, hsaved, hst⟩ := hr
      obtain ⟨hdev, hfree⟩ := bitmapScan_some hscan
      have hudev : u.devSize = s.devSize := by rw [hsaved.rest]; rfl
      have hufm : u.freeMap = bitmapSetMultiple s.freeMap st (bytesToSectors n) true := by rw [hsaved.rest]; rfl
      have hxr : ¬ (st ≤ x ∧ x < st + bytesToSectors n) := fun hr => by
        have := hfree x hr.1 hr.2
        change s.freeMap x = false at this
        rw [hx.used] at this
        cases this
      have hstore := ok_storeInode (u := u) (n := n) (by rw [hudev]; exact hx.lt_dev) (by rw [hudev]; exact hdev) hxr
      refine hstore.mono ?_
      rintro ok s' ⟨rfl, disk, hs', hput, hblock, hzero⟩
      have heq : s' = ((s.setFreeMap (bitmapSetMultiple s.freeMap st (bytesToSectors n) true)).setDisk
          disk).setMem u.mem := by rw [hs', hsaved.rest]; rfl
      have hout' : ∀ z, ¬ (s.dinode freeMapSector).Data z → z ≠ x → ¬ (st ≤ z ∧ z < st + bytesToSectors n) →
          disk z = s.disk z := fun z hd hne hr => (hput z hne hr).trans (hsaved.disk z hd)
      obtain ⟨hw, hfresh, hdin, hcontent⟩ := h.made hx hscan u.mem hout' hblock hzero s' heq
      refine ⟨hw, disk, u.mem, fun h0 => hsaved.mem (hmem h0), st, hscan, heq, hout', ?_, hfresh, hdin, hcontent⟩
      -- the file of the map is neither the new inode nor its data
      have hus : u.Synced := by
        unfold St.Synced
        have hcalm : Calm s u :=
          .of_saved hl ⟨hsaved.rest, hsaved.disk, fun h0 => hsaved.mem (hmem h0)⟩ fun _ _ => hst
        rw [hcalm.dinode_map hl, hudev]
        exact hst
      have hwu : Wf u e := h0.saved hsaved fun y hy z hz => by
        change bitmapSetMultiple s.freeMap st (bytesToSectors n) true z = true
        rw [bitmapSetMultiple_apply, hl.used_of_mem hy hz, ite_self]
      have hue : u.extent freeMapSector = s.extent freeMapSector := by
        simp only [St.extent, St.dinode, hsaved.disk _ (hl.apart _ s.map_mem)]
        rfl
      refine hwu.layout.synced_of (by rw [hs']; rfl) (by rw [hs']; rfl) (fun z hz => ?_) hus
      rw [hue] at hz
      rw [hs']
      refine hput z ?_ fun hr => hl.not_mem_extent (hfree z hr.1 hr.2) s.map_mem hz
      rintro rfl
      exact hx.free _ s.map_mem hz

/-! ## The steps of `filesys_create` -/

/-- The first free sector. -/
def St.scanInode (s : St) : Option Nat := bitmapScan s.freeMap s.devSize 1

/-- The first free run for `n` bytes of data once sector `x` is taken. -/
def St.scanData (s : St) (x n : Nat) : Option Nat :=
  bitmapScan (bitmapSetMultiple s.freeMap x 1 true) s.devSize (bytesToSectors n)

/-- What `filesys_create` may write: the file of the map, the directory and
free sectors. -/
def St.Writable (s : St) (z : Nat) : Prop :=
  (s.dinode freeMapSector).Data z ∨ s.root.Data z ∨ s.freeMap z = false

/-- `dir_add` has no reason to fail but memory. -/
def St.CanName (s : St) (name : Name) : Prop :=
  name.Valid ∧ (∀ k < dirEntries, ¬ s.Has name k) ∧ ∃ k < dirEntries, (s.slot k).inUse = false

/-- How far the steps get: `success` and `inode_sector`. -/
inductive Outcome (s : St) (name : Name) (n : Nat) (s' : St) : Bool → Nat → Prop
  | noSector (hmap : s'.freeMap = s.freeMap) (hroot : ∀ z ∈ s.extent rootDirSector, s'.disk z = s.disk z)
      (hno : s.mem = [] → s.scanInode = none) : Outcome s name n s' false 0
  | noData (x : Nat) (hscan : s.scanInode = some x) (hmap : s'.freeMap = bitmapSetMultiple s.freeMap x 1 true)
      (hres : Reserved s' x) (hroot : ∀ z ∈ s.extent rootDirSector, s'.disk z = s.disk z)
      (hno : s.mem = [] → s.scanData x n = none) : Outcome s name n s' false x
  | noEntry (x st : Nat) (hscan : s.scanInode = some x) (hdata : s.scanData x n = some st)
      (hmap : s'.freeMap = bitmapSetMultiple (bitmapSetMultiple s.freeMap x 1 true) st (bytesToSectors n) true)
      (hres : Reserved s' x) (hroot : ∀ z ∈ s.extent rootDirSector, s'.disk z = s.disk z)
      (hno : s.mem = [] → ¬ s.CanName name) : Outcome s name n s' false x
  | made (x st j : Nat) (hscan : s.scanInode = some x) (hdata : s.scanData x n = some st) (hj : j < dirEntries)
      (hmap : s'.freeMap = bitmapSetMultiple (bitmapSetMultiple s.freeMap x 1 true) st (bytesToSectors n) true)
      (hslot : ∀ k < dirEntries, s'.slot k = if k = j then ⟨x, name.chars, true⟩ else s.slot k)
      (hdin : s'.dinode x = ⟨st, n⟩) (hcontent : s'.content x = List.replicate n 0) (hvalid : name.Valid)
      (hcan : s.mem = [] → (s.slot j).inUse = false ∧ ∀ k < dirEntries, ¬ s.Has name k) : Outcome s name n s' true x

/-- A sector that was free and has been marked. -/
theorem reserved_of_scan (hl : Layout s) {u : St} {x : Nat} (hx : s.scanInode = some x)
    (hu : Saved (s.dinode freeMapSector) (bitmapSetMultiple s.freeMap x 1 true) s u) : Reserved u x := by
  obtain ⟨hdev, hfree⟩ := bitmapScan_some hx
  have hfx : s.freeMap x = false := hfree x (Nat.le_refl x) (by omega)
  have hlive : u.live = s.live := hl.live_eq (by rw [hu.rest]; rfl) (hu.disk _ (hl.not_data s.map_mem s.root_mem))
    fun z hz => hu.disk z (hl.data_disjoint s.root_mem s.map_mem (by decide) hz)
  refine ⟨?_, ?_, fun y hy hxy => ?_⟩
  · rw [hu.rest]
    change x < s.devSize
    omega
  · rw [hu.rest]
    change bitmapSetMultiple s.freeMap x 1 true x = true
    rw [bitmapSetMultiple_apply, if_pos (by omega)]
  · rw [hlive] at hy
    refine hl.not_mem_extent hfx hy ?_
    simpa only [St.extent, St.dinode, hu.disk y (hl.not_data s.map_mem hy)] using hxy

/-- A reserved sector stays one when only the file of the map changes. -/
theorem Reserved.calm (hl : Layout s) {v : St} {x : Nat} (hx : Reserved s x) (hc : Calm s v)
    (hino : v.inodes = s.inodes) (hmap : v.freeMap = s.freeMap) : Reserved v x := by
  have hlive : v.live = s.live := hl.live_eq hino (hc.disk _ (hl.not_data s.map_mem s.root_mem))
    fun z hz => hc.disk z (hl.data_disjoint s.root_mem s.map_mem (by decide) hz)
  refine ⟨hc.devSize ▸ hx.lt_dev, hmap ▸ hx.used, fun y hy hxy => ?_⟩
  rw [hlive] at hy
  refine hx.free y hy ?_
  simpa only [St.extent, St.dinode, hc.disk y (hl.not_data s.map_mem hy)] using hxy

theorem Fresh.reserved {x : Nat} (hx : Fresh s x) : Reserved s x :=
  ⟨hx.lt_dev, hx.used x (.inl rfl), fun y hy hxy => Set.disjoint_left.mp (hx.disjoint y hy) (.inl rfl) hxy⟩

theorem ok_createSteps {p : Nat} {r : Inode} (h : Wf s e) (hr : s.RootAt p r) (name : Name) (n : Nat)
    (buf : List Byte) :
    Ok (createSteps (some p) name n buf) s fun res s' => Wf s' e ∧ Touch s.Writable s s' ∧
      s'.inodes = s.inodes ∧ s'.files = s.files ∧ Outcome s name n s' res.1 res.2 := by
  have hl := h.layout
  obtain ⟨mi, hmi, -, hmd⟩ := h.mapInode
  have hrootmap := hl.root_not_map
  unfold createSteps
  dsimp only
  rw [ok_bind]
  refine (ok_freeMapAllocate hmi 1).mono ?_
  intro found u hu
  rw [hmd] at hu
  cases found with
  | none =>
    obtain ⟨hsaved, hfull⟩ := hu
    have hcalm : Calm s u := .of_saved hl hsaved fun hm hs => by rw [(hfull hm).2]; exact hs
    exact (ok_pure _).mpr ⟨h.saved hsaved fun y hy z hz => hl.used_of_mem hy hz, hcalm.touch fun z hz => .inl hz,
      by rw [hsaved.rest]; rfl, by rw [hsaved.rest]; rfl,
      .noSector (by rw [hsaved.rest]; rfl) (fun z hz => hsaved.disk z (hrootmap z hz)) fun hm => (hfull hm).1⟩
  | some x =>
    obtain ⟨hscan, hsaved, hst⟩ := hu
    obtain ⟨hxdev, hxfree⟩ := bitmapScan_some hscan
    have hfx : s.freeMap x = false := hxfree x (Nat.le_refl x) (by omega)
    have hcalm : Calm s u := .of_saved hl hsaved fun _ _ => hst
    have hwu : Wf u e := h.saved hsaved fun y hy z hz => by
      rw [bitmapSetMultiple_apply, hl.used_of_mem hy hz, ite_self]
    have hres : Reserved u x := reserved_of_scan hl hscan hsaved
    have hufm : u.freeMap = bitmapSetMultiple s.freeMap x 1 true := by rw [hsaved.rest]; rfl
    have hudata : bitmapScan u.freeMap u.devSize (bytesToSectors n) = s.scanData x n := by
      rw [hufm, hcalm.devSize]
      rfl
    have huino : u.inodes = s.inodes := by rw [hsaved.rest]; rfl
    have hufiles : u.files = s.files := by rw [hsaved.rest]; rfl
    have hudin : u.dinode freeMapSector = s.dinode freeMapSector := hcalm.dinode_map hl
    have huroot : ∀ z ∈ s.extent rootDirSector, u.disk z = s.disk z := fun z hz => hsaved.disk z (hrootmap z hz)
    dsimp only
    rw [ok_bind]
    refine (ok_inodeCreate hwu hres n).mono ?_
    rintro made v ⟨hwv, disk, m', hm', hv⟩
    rw [hudata, hudin] at hv
    cases made with
    | false =>
      obtain ⟨hv, hout, hno⟩ := hv
      have hcv : Calm u v := by
        refine ⟨by rw [hv]; rfl, by rw [hv]; rfl, fun z hz => ?_, fun hm => by rw [hv]; exact hm' hm, fun hm hs => ?_⟩
        · rw [hudin] at hz
          rw [hv]
          exact hout z hz
        · exact hwu.layout.synced_of (by rw [hv]; rfl) (by rw [hv]; rfl)
            (fun z _ => by rw [hv, ← (hno hm).2]; rfl) hs
      rw [if_neg (by decide), ok_pure]
      refine ⟨hwv, (hcalm.trans hcv hl).touch fun z hz => .inl hz, by rw [hv]; exact huino, by rw [hv]; exact hufiles,
        .noData x hscan (by rw [hv]; exact hufm) (hres.calm hwu.layout hcv (by rw [hv]; rfl) (by rw [hv]; rfl))
          (fun z hz => ?_) fun hm => (hno (hcalm.mem hm)).1⟩
      rw [hcv.disk z (by rw [hudin]; exact hrootmap z hz), huroot z hz]
    | true =>
      obtain ⟨st, hdata, hv, hout, hsync, hfresh, hdin, hcontent⟩ := hv
      obtain ⟨-, hrange⟩ := bitmapScan_some hdata
      -- the sectors that were marked in `s` are not those of the new file
      have hold : ∀ z, s.freeMap z = true → z ≠ x ∧ ¬ (st ≤ z ∧ z < st + bytesToSectors n) := by
        intro z hz
        refine ⟨fun he => ?_, fun hr => ?_⟩
        · rw [he, hfx] at hz
          cases hz
        · have := hrange z hr.1 hr.2
          rw [bitmapSetMultiple_apply, hz, ite_self] at this
          cases this
      have hvdisk : ∀ z, ¬ (s.dinode freeMapSector).Data z → s.freeMap z = true → v.disk z = s.disk z := by
        intro z hd hz
        obtain ⟨hne, hnr⟩ := hold z hz
        rw [hv]
        exact (hout z hd hne hnr).trans (hsaved.disk z hd)
      have hvroot : ∀ z ∈ s.extent rootDirSector, v.disk z = s.disk z := fun z hz =>
        hvdisk z (hrootmap z hz) (hl.used_of_mem s.root_mem hz)
      have hvslot : ∀ k < dirEntries, v.slot k = s.slot k := fun k hk =>
        hl.slot_eq (hvroot _ (.inl rfl)) (fun z hz => hvroot z (.inr hz)) hk
      have hvr : v.root = s.root := by simp only [St.root, St.dinode, hvroot _ (.inl rfl)]
      have htv : Touch s.Writable s v := by
        refine ⟨by rw [hv]; exact hcalm.devSize, by rw [hv]; exact hcalm.mapFile, fun z hz => hvdisk z ?_ ?_,
          fun hm => by rw [hv]; exact hm' (hcalm.mem hm), fun _ _ => hsync⟩
        · exact fun hd => hz (.inl hd)
        · exact Bool.eq_true_of_not_eq_false fun hf => hz (.inr (.inr hf))
      have hvino : v.inodes = s.inodes := by rw [hv]; exact huino
      have hrv : v.RootAt p r := ⟨by rw [hvino]; exact hr.inode, hr.sector⟩
      have hx32 : x < 2 ^ 32 := by
        have := hl.devSize
        simp only [maxSectors, sectorSize] at this
        omega
      rw [if_pos rfl, ok_bind]
      refine (ok_dirAdd hwv hrv name hx32 buf).mono ?_
      rintro added w ⟨m'', hm'', hw⟩
      rw [ok_pure]
      cases added with
      | false =>
        obtain ⟨rfl, hno⟩ := hw
        have hq := Quiet.setMem v hm''
        refine ⟨hwv.setMem m'', ⟨htv.devSize, htv.mapFile, htv.disk, fun hm => hm'' (htv.mem hm), fun _ _ => hsync⟩,
          hvino, by rw [← hufiles, hv]; rfl,
          .noEntry x st hscan hdata (by rw [hv, ← hufm]; rfl)
            (hfresh.reserved.calm hwv.layout hq.toCalm rfl rfl) hvroot fun hm hcan => ?_⟩
        obtain ⟨hvalid, hnew, k, hk, hfree⟩ := hcan
        rcases hno (htv.mem hm) with h1 | ⟨j, hj, h1⟩ | h1
        · exact h1 hvalid
        · refine hnew j hj ?_
          unfold St.Has at *
          rwa [hvslot j hj] at h1
        · have := h1 k hk
          rw [hvslot k hk, hfree] at this
          cases this
      | true =>
        obtain ⟨hvalid, j, hj, disk₂, hw, hout₂, hslot₂, hcan⟩ := hw
        have hww : Wf w e := by
          rw [hw]
          exact ⟨hwv.heap.congr v.freeMap disk₂ m'', hwv.layout.setSlot hout₂ hslot₂ fun _ => hfresh⟩
        have hkeep : ∀ z ∈ v.extent x, w.disk z = v.disk z := fun z hz => by
          rw [hw]
          exact hout₂ z (hfresh.not_data v.root_mem hz)
        obtain ⟨hwdin, hwcontent⟩ := content_eq hfresh.onDevice hkeep
        refine ⟨hww, htv.trans ⟨by rw [hw]; rfl, by rw [hw]; rfl, fun z hz => ?_, fun hm => by rw [hw]; exact hm'' hm,
          fun _ hs => ?_⟩, by rw [hw]; exact hvino, by rw [hw, ← hufiles, hv]; rfl,
          .made x st j hscan hdata hj (by rw [hw, hv, ← hufm]; rfl) (fun k hk => ?_) (hwdin.trans hdin)
            (hwcontent.trans hcontent) hvalid fun hm => ?_⟩
        · rw [hw]
          refine hout₂ z fun hd => hz (.inr (.inl ?_))
          rwa [hvr] at hd
        · refine hwv.layout.synced_of (by rw [hw]; rfl) (by rw [hw]; rfl) (fun z hz => ?_) hs
          rw [hw]
          refine hout₂ z fun hd => ?_
          rcases hz with rfl | hz
          · exact hwv.layout.not_data v.root_mem v.map_mem hd
          · exact hwv.layout.data_disjoint v.map_mem v.root_mem (by decide) hz hd
        · rw [hw, hslot₂ k]
          split
          · rfl
          · exact hvslot k hk
        · obtain ⟨h1, h2⟩ := hcan (htv.mem hm)
          rw [hvslot j hj] at h1
          refine ⟨h1, fun k hk hhas => h2 k hk ?_⟩
          unfold St.Has at *
          rwa [hvslot k hk]

end

end Pintos.Fs
