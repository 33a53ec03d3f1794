import Pintos.L3Proof.FsOps

/-!
# Formatting and opening a file system

`filesys_init` on a machine that has just been switched on. Formatting makes
the free-map file while the map has no file yet, then the root directory, and
closes the file; opening reads the map back from the device.
-/
namespace Pintos.Fs

open Pintos.Core Function

/-- No inode and no file is open. -/
structure Idle (s : St) : Prop where
  inodes : ∀ p, s.inodes p = none
  files : ∀ g, s.files g = none
  openInodes : s.openInodes = []

/-- No reference is held outside files. -/
def noHold : Nat → Nat := fun _ => 0

variable {s : St}

theorem Idle.findOpen (h : Idle s) (x : Nat) : s.findOpen x = none := by
  simp only [St.findOpen, h.openInodes, List.find?_nil]

/-! ## The free-map file is opened -/

/-- The state after the free-map file has been opened. -/
def opened (s : St) (m : List Bool) : St where
  devSize := s.devSize
  disk := s.disk
  freeMap := s.freeMap
  freeMapFile := some (s.brk + 1)
  inodes := update s.inodes s.brk (some ⟨freeMapSector, 1, false, 0, s.dinode freeMapSector⟩)
  openInodes := [s.brk]
  files := update s.files (s.brk + 1) (some ⟨s.brk, 0, false⟩)
  brk := s.brk + 2
  mem := m

section
variable (h : Idle s) (m : List Bool)
include h

theorem opened_inodes {p : Nat} {i : Inode} (hi : (opened s m).inodes p = some i) :
    p = s.brk ∧ i = ⟨freeMapSector, 1, false, 0, s.dinode freeMapSector⟩ := by
  change update s.inodes s.brk _ p = some i at hi
  by_cases hp : p = s.brk
  · rw [hp, update_self] at hi
    cases hi
    exact ⟨hp, rfl⟩
  · rw [update_of_ne hp, h.inodes] at hi
    cases hi

theorem opened_files {g : Nat} {f : File} (hf : (opened s m).files g = some f) :
    g = s.brk + 1 ∧ f = ⟨s.brk, 0, false⟩ := by
  change update s.files (s.brk + 1) _ g = some f at hf
  by_cases hg : g = s.brk + 1
  · rw [hg, update_self] at hf
    cases hf
    exact ⟨hg, rfl⟩
  · rw [update_of_ne hg, h.files] at hf
    cases hf

theorem opened_count (P : File → Bool) :
    count (opened s m).files P (opened s m).brk = (P ⟨s.brk, 0, false⟩).toNat := by
  change count (update s.files (s.brk + 1) (some ⟨s.brk, 0, false⟩)) P (s.brk + 1 + 1) = _
  rw [count_succ, update_self, count_update_of_le _ (Nat.le_refl _), count_none fun k _ => h.files k,
    Nat.zero_add]
  rfl

theorem heap_opened : Heap (opened s m) noHold := by
  have hself : (opened s m).inodes s.brk = some ⟨freeMapSector, 1, false, 0, s.dinode freeMapSector⟩ :=
    update_self ..
  exact {
    nodup := List.nodup_cons.mpr ⟨List.not_mem_nil, List.nodup_nil⟩
    mem_open := fun p => by
      change p ∈ [s.brk] ↔ _
      rw [List.mem_singleton]
      constructor
      · rintro rfl
        exact ⟨_, hself⟩
      · rintro ⟨i, hi⟩
        exact (opened_inodes h m hi).1
    inj := fun p q i j hi hj _ => by rw [(opened_inodes h m hi).1, (opened_inodes h m hj).1]
    openCnt := fun p i hi => by
      obtain ⟨rfl, rfl⟩ := opened_inodes h m hi
      unfold St.refs
      rw [opened_count h m, beq_self_eq_true]
      exact ⟨rfl, Nat.one_pos⟩
    denyCnt := fun p i hi => by
      obtain ⟨rfl, rfl⟩ := opened_inodes h m hi
      unfold St.denies
      rw [opened_count h m, Bool.and_false]
      rfl
    file := fun g f hf => by
      obtain ⟨rfl, rfl⟩ := opened_files h m hf
      exact ⟨_, hself, by change freeMapSector ≠ rootDirSector; decide, fun _ => rfl⟩
    extra := fun _ _ => rfl
    below := fun g hg => by
      have hg : s.brk + 2 ≤ g := hg
      constructor
      · change update s.inodes s.brk _ g = none
        rw [update_of_ne (by omega), h.inodes]
      · change update s.files (s.brk + 1) _ g = none
        rw [update_of_ne (by omega), h.files]
    map := ⟨s.brk + 1, _, _, rfl, update_self .., rfl, hself, rfl⟩ }

end

/-- The free-map file is opened, or memory is short. -/
theorem ok_openMap (h : Idle s) (hdev : 0 < s.devSize) :
    Ok (inodeOpen freeMapSector >>= fileOpen) s fun found s' =>
      match found with
      | none => s.mem ≠ []
      | some g => ∃ m, (s.mem = [] → m = []) ∧ s'.setFreeMapFile (some g) = opened s m := by
  unfold inodeOpen
  rw [ok_bind, ok_bind, ok_fsGet, h.findOpen]
  dsimp only
  rw [ok_bind, ok_malloc]
  have htail : s.mem = [] → s.mem.tail.tail = [] := fun hm => by rw [hm]; rfl
  cases hm : s.mem.headD true with
  | false =>
    rw [if_neg (by decide), ok_pure, ok_fileOpen_none]
    exact mem_ne_nil hm
  | true =>
    rw [if_pos rfl, ok_bind, ok_newPtr, ok_bind, ok_blockRead (by exact hdev), ok_bind, ok_fsModify, ok_pure]
    unfold fileOpen
    rw [ok_bind, ok_malloc]
    cases hm' : s.mem.tail.headD true with
    | true =>
      simp only [St.setOpen_mem, St.setInode_mem, St.setBrk_mem, St.setMem_mem, hm']
      rw [ok_bind, ok_newPtr, ok_bind, ok_fsModify, ok_pure]
      refine ⟨s.mem.tail.tail, htail, ?_⟩
      simp only [opened, St.setOpen, St.setInode, St.setBrk, St.setMem, St.setFile, St.setFreeMapFile, h.openInodes]
      rfl
    | false =>
      simp only [St.setOpen_mem, St.setInode_mem, St.setBrk_mem, St.setMem_mem, hm']
      have hne : s.mem ≠ [] := by
        intro hnil
        rw [hnil] at hm'
        cases hm'
      rw [ok_bind, inodeClose, ok_bind,
        ok_inodeAt (i := ⟨freeMapSector, 1, false, 0, s.dinode freeMapSector⟩) (update_self ..), ok_bind,
        ok_fsModify, if_pos rfl, inodeFree, ok_bind, ok_fsModify, if_neg Bool.false_ne_true, ok_fsModify, ok_pure]
      exact hne

variable {b : Nat → Bool} {u : St} {x st n dev : Nat}

/-- The map is read from its file. -/
theorem ok_bitmapRead (hl : Layout (s.setFreeMap b)) (m : List Bool) :
    Ok (bitmapRead (s.brk + 1)) (opened s m) fun ok s' => ∃ bs m', s' = ((opened s m').setFreeMap
        (bitmapOfBytes bs s.devSize)) ∧ (m = [] → ok = true ∧ m' = []) ∧
      (ok = true → bs = readBytes s.disk (s.dinode freeMapSector).start 0 (byteCnt s.devSize)) := by
  have hfile : (opened s m).files (s.brk + 1) = some ⟨s.brk, 0, false⟩ := update_self ..
  have hino : (opened s m).inodes s.brk = some ⟨freeMapSector, 1, false, 0, s.dinode freeMapSector⟩ :=
    update_self ..
  have hon : (s.dinode freeMapSector).OnDevice s.devSize := hl.onDevice _ (St.map_mem _)
  have hlen : (s.dinode freeMapSector).length = byteCnt s.devSize := hl.mapLength
  unfold bitmapRead fileReadAt
  rw [ok_bind, ok_fsGet, ok_bind, ok_bind, ok_fileAt hfile]
  refine (ok_inodeReadAt hino (by exact hon.fits) fun _ => Int.le_refl 0).mono ?_
  rintro bs u ⟨k, m', rfl, rfl, hu⟩
  change Upto _ (min (Int.toNat (byteCnt s.devSize)) ((s.dinode freeMapSector).length - _)) m k m' at hu
  rw [hlen, Int.toNat_zero, Int.toNat_natCast, Nat.sub_zero, Nat.min_self] at hu
  rw [ok_bind, ok_fsModify, ok_pure, length_readBytes]
  refine ⟨_, m', rfl, fun hm => ⟨decide_eq_true (hu.full hm).1, (hu.full hm).2⟩, fun hk => ?_⟩
  rw [of_decide_eq_true hk]
  rfl

/-- Opening an idle file system whose layout is sound with map `b`. -/
theorem wf_opened (h : Idle s) (hl : Layout (s.setFreeMap b)) (m : List Bool) :
    Wf ((opened s m).setFreeMap b) noHold := by
  refine ⟨(heap_opened h m).congr b s.disk m, hl.frame rfl (fun p i hi => ?_) (fun _ _ => rfl) (fun _ _ => rfl)
    fun x hx z hz => hl.used_of_mem ?_ hz⟩
  · obtain ⟨-, rfl⟩ := opened_inodes h m hi
    exact ⟨St.map_mem _, rfl, fun hr => by cases hr⟩
  · rcases hx with hx | hx | hx | ⟨p, i, hi, rfl⟩
    · exact .inl hx
    · exact .inr (.inl hx)
    · exact .inr (.inr (.inl hx))
    · obtain ⟨-, rfl⟩ := opened_inodes h m hi
      exact St.map_mem _

/-- `free_map_open` reads the map from the device. -/
theorem exits_freeMapOpen (h : Idle s) (hl : Layout (s.setFreeMap b))
    (hb : b = bitmapOfBytes (readBytes s.disk (s.dinode freeMapSector).start 0 (byteCnt s.devSize)) s.devSize) :
    Exits freeMapOpen s (fun _ s' => Wf s' noHold ∧ s'.Synced ∧ s'.disk = s.disk ∧ s'.freeMap = b ∧
      s'.devSize = s.devSize ∧ (s.mem = [] → s'.mem = []) ∧ ∀ g, ¬ s'.Handle g) fun _ => s.mem ≠ [] := by
  have hdev : 0 < s.devSize := hl.lt_dev freeMapSector (St.map_mem _)
  have hopen := ok_openMap h hdev
  unfold freeMapOpen
  rw [ok_bind] at hopen
  refine exits_bind (hopen.mono fun p u hu => ?_).exits
  refine exits_bind (hu.mono fun found v hv => ?_).exits
  cases found with
  | none => exact exits_fail hv
  | some g =>
    obtain ⟨m, hm, hv⟩ := hv
    have hg : g = s.brk + 1 := Option.some.inj (congrArg St.freeMapFile hv)
    refine exits_bind ((ok_fsModify _).mpr ?_).exits
    rw [hv, hg]
    refine exits_bind ((ok_bitmapRead hl m).mono ?_).exits
    rintro ok w ⟨bs, m', rfl, hok, hbs⟩
    cases ok with
    | false =>
      refine exits_fail fun hnil => ?_
      cases (hok (hm hnil)).1
    | true =>
      rw [hbs rfl, ← hb]
      refine exits_pure ⟨wf_opened h hl m', fun i hi => ?_, rfl, rfl, rfl, fun hnil => (hok (hm hnil)).2,
        fun g' hg' => ?_⟩
      · change bitmapOfBytes (readBytes s.disk (s.dinode freeMapSector).start 0 (byteCnt s.devSize)) s.devSize i = b i
        rw [← hb]
      · obtain ⟨h1, h2⟩ := hg'
        obtain ⟨f, hf⟩ := Option.isSome_iff_exists.mp h1
        obtain ⟨rfl, -⟩ := opened_files h m' hf
        exact h2 rfl

/-! ## Formatting -/

/-- The layout of a device on which nothing but the free-map file and an empty
directory have been made, with data from `st₀` and `st₁` on. -/
structure Formatted (s : St) (st₀ st₁ : Nat) : Prop where
  devSize : s.devSize < maxSectors
  one_lt : rootDirSector < s.devSize
  map : s.dinode freeMapSector = ⟨st₀, byteCnt s.devSize⟩
  root : s.dinode rootDirSector = ⟨st₁, dirEntries * entrySize⟩
  mapRange : st₀ + bytesToSectors (byteCnt s.devSize) ≤ s.devSize
  rootRange : st₁ + bytesToSectors (dirEntries * entrySize) ≤ s.devSize
  mapFree : ∀ z, st₀ ≤ z → z < st₀ + bytesToSectors (byteCnt s.devSize) → z ≠ freeMapSector ∧ z ≠ rootDirSector
  rootFree : ∀ z, st₁ ≤ z → z < st₁ + bytesToSectors (dirEntries * entrySize) →
    z ≠ freeMapSector ∧ z ≠ rootDirSector ∧ ¬ (st₀ ≤ z ∧ z < st₀ + bytesToSectors (byteCnt s.devSize))
  marked : ∀ z, z = freeMapSector ∨ z = rootDirSector ∨ (st₀ ≤ z ∧ z < st₀ + bytesToSectors (byteCnt s.devSize)) ∨
    (st₁ ≤ z ∧ z < st₁ + bytesToSectors (dirEntries * entrySize)) → s.freeMap z = true
  zero : ∀ z, st₁ ≤ z → z < st₁ + bytesToSectors (dirEntries * entrySize) → ∀ o < sectorSize, s.disk z o = 0

namespace Formatted

variable {st₀ st₁ : Nat} (h : Formatted s st₀ st₁)
include h

theorem slot_free {k : Nat} (hk : k < dirEntries) : (s.slot k).inUse = false := by
  have hzero : byteOf s.disk s.root.start (k * entrySize + 19) = 0 := by
    change byteOf s.disk (s.dinode rootDirSector).start _ = 0
    rw [h.root]
    refine h.zero _ (Nat.le_add_right ..) ?_ _ (Nat.mod_lt _ (by simp [sectorSize]))
    have : bytesToSectors (dirEntries * entrySize) = 1 := by decide
    rw [this]
    simp only [dirEntries, entrySize, sectorSize] at *
    omega
  simp only [St.slot, readEntry, hzero, ne_eq, not_true_eq_false, decide_false]

theorem layout (hidle : ∀ p, s.inodes p = none) : Layout s := by
  have hnamed : ∀ x, ¬ s.Named x := by
    rintro x ⟨k, hk, huse, -⟩
    rw [h.slot_free hk] at huse
    cases huse
  have hopen : ∀ x, ¬ s.Open x := by
    rintro x ⟨p, i, hi, -⟩
    rw [hidle] at hi
    cases hi
  have hlive : ∀ x ∈ s.live, x = freeMapSector ∨ x = rootDirSector := by
    rintro x (hx | hx | hx | hx)
    · exact .inl hx
    · exact .inr hx
    · exact absurd hx (hnamed x)
    · exact absurd hx (hopen x)
  have hmapOn : (s.dinode freeMapSector).OnDevice s.devSize := by
    rw [h.map]
    refine ⟨?_, h.mapRange⟩
    have := h.devSize
    change byteCnt s.devSize + _ < _
    simp only [byteCnt, maxSectors, sectorSize] at *
    omega
  have hrootOn : (s.dinode rootDirSector).OnDevice s.devSize := by
    rw [h.root]
    exact ⟨by change dirEntries * entrySize + (sectorSize - 1) < 2 ^ 31; decide, h.rootRange⟩
  have hdisj : Disjoint (s.extent freeMapSector) (s.extent rootDirSector) := by
    refine Set.disjoint_left.mpr fun z hz hz' => ?_
    simp only [St.extent, h.map, h.root] at hz hz'
    rcases hz with rfl | hz
    · rcases hz' with hz' | hz'
      · exact absurd hz' (by decide)
      · exact (h.rootFree _ hz'.1 hz'.2).1 rfl
    · rcases hz' with rfl | hz'
      · exact (h.mapFree _ hz.1 hz.2).2 rfl
      · exact (h.rootFree z hz'.1 hz'.2).2.2 hz
  have hused : ∀ x ∈ s.live, s.extent x ⊆ s.used := by
    intro x hx z hz
    refine h.marked z ?_
    rcases hlive x hx with rfl | rfl
    · simp only [St.extent, h.map] at hz
      rcases hz with hz | hz
      · exact .inl hz
      · exact .inr (.inr (.inl hz))
    · simp only [St.extent, h.root] at hz
      rcases hz with hz | hz
      · exact .inr (.inl hz)
      · exact .inr (.inr (.inr hz))
  exact {
    devSize := h.devSize
    owned := by
      refine ⟨fun x hx y hy hne => ?_, hused⟩
      rcases hlive x hx with rfl | rfl
      · rcases hlive y hy with rfl | rfl
        · exact absurd rfl hne
        · exact hdisj
      · rcases hlive y hy with rfl | rfl
        · exact hdisj.symm
        · exact absurd rfl hne
    apart := fun x hx hd => by
      rcases hlive x hx with rfl | rfl
      · rw [h.map] at hd
        exact (h.mapFree _ hd.1 hd.2).1 rfl
      · rw [h.root] at hd
        exact (h.rootFree _ hd.1 hd.2).2.1 rfl
    lt_dev := fun x hx => by
      have := h.one_lt
      rcases hlive x hx with rfl | rfl
      · exact Nat.lt_trans (by decide) this
      · exact this
    onDevice := fun x hx => by
      rcases hlive x hx with rfl | rfl
      · exact hmapOn
      · exact hrootOn
    data := fun p i hi => by rw [hidle] at hi; cases hi
    rootLength := congrArg DiskInode.length h.root
    mapLength := congrArg DiskInode.length h.map
    slots := fun j k hj _ hu => by rw [h.slot_free hj] at hu; cases hu
    named := fun x hx => absurd hx (hnamed x)
    removed := fun p i hi => by rw [hidle] at hi; cases hi }

end Formatted

theorem exits_storeInode (hdev : st + bytesToSectors n ≤ u.devSize)
    (hxr : ¬ (st ≤ x ∧ x < st + bytesToSectors n)) :
    Exits (do blockWrite x (DiskInode.block ⟨st, n⟩); zeroLoop (bytesToSectors n) st; pure true : M Bool) u
      (fun _ s' => x < u.devSize ∧ ∃ disk, s' = u.setDisk disk ∧ NewInode x st n u.disk disk) fun _ => True := by
  by_cases hx : x < u.devSize
  · exact ((ok_storeInode hx hdev hxr).mono fun _ _ h => ⟨hx, h.2⟩).exits
  · exact exits_bind (.inr ⟨.pastEnd, by simp only [blockWrite, if_neg hx], trivial⟩)

/-- `inode_create` while the file system is formatted: it may fail or panic. -/
theorem exits_inodeCreate {A : Nat → St → Prop}
    (halloc : Ok (freeMapAllocate (bytesToSectors n)) (s.setMem s.mem.tail) fun r u => ∀ st, r = some st → A st u)
    (hA : ∀ st u, A st u → st + bytesToSectors n ≤ u.devSize ∧ ¬ (st ≤ x ∧ x < st + bytesToSectors n)) :
    Exits (inodeCreate x n) s (fun ok s' => ok = true → ∃ st u disk, A st u ∧ x < u.devSize ∧ s' = u.setDisk disk ∧
      NewInode x st n u.disk disk) fun _ => True := by
  unfold inodeCreate
  rw [if_neg (by omega)]
  refine exits_bind (ok_malloc.mpr ?_).exits
  cases s.mem.headD true with
  | false =>
    rw [if_neg (by decide)]
    exact exits_pure fun h => by cases h
  | true =>
    rw [if_pos rfl, Int.toNat_natCast]
    refine exits_bind (halloc.mono fun r u hr => ?_).exits
    cases r with
    | none => exact exits_pure fun h => by cases h
    | some st =>
      have ha := hr st rfl
      obtain ⟨hdev, hxr⟩ := hA st u ha
      have hstore := exits_storeInode (u := u) (n := n) hdev hxr
      refine hstore.mono (fun ok s' h _ => ?_) fun _ _ => trivial
      obtain ⟨hx, disk, hrest⟩ := h
      exact ⟨st, u, disk, ha, hx, hrest⟩

/-- Before the map has a file, allocation only marks the map. -/
theorem ok_freeMapAllocate_unmapped (hfile : s.freeMapFile = none) (n : Nat) :
    Ok (freeMapAllocate n) s fun r u => ∀ st, r = some st →
      bitmapScan s.freeMap s.devSize n = some st ∧ u = s.setFreeMap (bitmapSetMultiple s.freeMap st n true) := by
  unfold freeMapAllocate
  rw [ok_bind, ok_fsGet]
  cases hscan : bitmapScan s.freeMap s.devSize n with
  | none => exact (ok_pure _).mpr fun st h => by cases h
  | some st =>
    dsimp only
    rw [ok_bind, ok_fsModify, hfile]
    refine (ok_pure _).mpr fun st' h => ?_
    cases h
    exact ⟨rfl, rfl⟩

/-- A sector marked in the map is not in a free run. -/
theorem not_mem_scan {cnt : Nat} (h : bitmapScan b n cnt = some st) (hx : b x = true) :
    ¬ (st ≤ x ∧ x < st + cnt) := fun hr => by
  rw [(bitmapScan_some h).2 x hr.1 hr.2] at hx
  cases hx

/-- The bytes of the map need no overflowing count of sectors. -/
theorem byteCnt_small (h : dev < maxSectors) : byteCnt dev + (sectorSize - 1) < 2 ^ 31 := by
  simp only [byteCnt, maxSectors, sectorSize] at *
  omega

theorem opened_mapInode (m : List Bool) (hdev : u.devSize = dev) (hsize : dev < maxSectors)
    (hdin : u.dinode freeMapSector = ⟨st, byteCnt dev⟩) (hle : st + bytesToSectors (byteCnt dev) ≤ dev) :
    (opened u m).MapInode ⟨freeMapSector, 1, false, 0, u.dinode freeMapSector⟩ := by
  subst hdev
  rw [hdin]
  exact ⟨⟨u.brk + 1, _, rfl, update_self .., by rw [← hdin]; exact update_self ..⟩, rfl, rfl,
    byteCnt_small hsize, hle⟩

/-- `free_map_create` makes the file of the map and leaves it open. -/
theorem exits_freeMapCreate (h : Idle s) (hfile : s.freeMapFile = none) (h0 : s.freeMap freeMapSector = true)
    (hsize : s.devSize < maxSectors) :
    Exits freeMapCreate s (fun _ s' => ∃ u m st, s' = opened u m ∧ Idle u ∧ u.devSize = s.devSize ∧
      bitmapScan s.freeMap s.devSize (bytesToSectors (byteCnt s.devSize)) = some st ∧
      u.freeMap = bitmapSetMultiple s.freeMap st (bytesToSectors (byteCnt s.devSize)) true ∧
      u.dinode freeMapSector = ⟨st, byteCnt s.devSize⟩ ∧ (s.mem = [] → m = [])) fun _ => True := by
  unfold freeMapCreate
  refine exits_bind ((ok_fsGet).mpr ?_).exits
  have hmake := exits_inodeCreate (s := s) (x := freeMapSector) (n := byteCnt s.devSize)
    (ok_freeMapAllocate_unmapped (s := s.setMem s.mem.tail) hfile _) fun st u hu => by
      rw [hu.2]
      exact ⟨(bitmapScan_some hu.1).1, not_mem_scan hu.1 h0⟩
  refine exits_bind (hmake.mono (fun made v hv => ?_) fun _ => id)
  cases made with
  | false => exact exits_fail trivial
  | true =>
    obtain ⟨st, u, disk, ⟨hscan, hu⟩, hx, rfl, -, hinode, -⟩ := hv rfl
    obtain ⟨hle, -⟩ := bitmapScan_some hscan
    have hdevu : u.devSize = s.devSize := by rw [hu]; rfl
    have hidle : Idle (u.setDisk disk) := by
      rw [hu]
      exact ⟨h.inodes, h.files, h.openInodes⟩
    have hdin : (u.setDisk disk).dinode freeMapSector = ⟨st, byteCnt s.devSize⟩ := by
      refine readInode_block ?_ ?_ hinode
      · change st < 2 ^ 32
        have hle : st + _ ≤ s.devSize := hle
        simp only [maxSectors, sectorSize] at hsize
        omega
      · have := byteCnt_small hsize
        change byteCnt s.devSize < 2 ^ 32
        omega
    have hopen := ok_openMap hidle (by exact Nat.zero_lt_of_lt hx)
    rw [ok_bind] at hopen
    refine exits_bind (hopen.mono fun p w hw => ?_).exits
    refine exits_bind (hw.mono fun found y hy => ?_).exits
    cases found with
    | none => exact exits_fail trivial
    | some g =>
      obtain ⟨m, hm, hy⟩ := hy
      have humem : s.mem = [] → (u.setDisk disk).mem = [] := fun hnil => by
        change u.mem = []
        rw [hu]
        change s.mem.tail = []
        rw [hnil]
        rfl
      refine exits_bind ((ok_fsModify _).mpr ?_).exits
      rw [hy]
      have hmap := opened_mapInode (u := u.setDisk disk) m hdevu hsize hdin hle
      have hg : some g = (opened (u.setDisk disk) m).freeMapFile := congrArg St.freeMapFile hy
      rw [hg]
      refine exits_bind ((ok_bitmapWrite hmap).mono fun ok z hz => ?_).exits
      cases ok with
      | false => exact exits_fail trivial
      | true =>
        obtain ⟨hsaved, -, -⟩ := hz
        have hkeep : z.disk freeMapSector = disk freeMapSector := hsaved.disk _ ?_
        · refine exits_pure ⟨u.setDisk z.disk, z.mem, st, ?_, ⟨hidle.inodes, hidle.files, hidle.openInodes⟩, hdevu,
            hscan, by rw [hu]; rfl, ?_, fun hnil => hsaved.mem (hm (humem hnil))⟩
          · rw [hsaved.rest]
            simp only [opened, St.setFreeMap, St.setDisk, St.setMem, St.dinode, hkeep]
          · rw [← hdin]
            simp only [St.dinode, St.setDisk_disk, hkeep]
        · change ¬ ((u.setDisk disk).dinode freeMapSector).Data freeMapSector
          rw [hdin]
          exact not_mem_scan hscan h0

/-- `free_map_close` closes the only open file. -/
theorem ok_freeMapClose_opened (h : Idle u) (m : List Bool) (b : Nat → Bool) (disk : Nat → Block) :
    Ok freeMapClose (((opened u m).setFreeMap b).setDisk disk) fun _ s' =>
      Idle s' ∧ s'.disk = disk ∧ s'.freeMap = b ∧ s'.devSize = u.devSize ∧ s'.mem = m := by
  have hfile : (opened u m).files (u.brk + 1) = some ⟨u.brk, 0, false⟩ := update_self ..
  have hino : (opened u m).inodes u.brk = some ⟨freeMapSector, 1, false, 0, u.dinode freeMapSector⟩ :=
    update_self ..
  unfold freeMapClose fileClose fileAllowWrite
  rw [ok_bind, ok_fsGet]
  change Ok (do
    let f ← fileAt (u.brk + 1)
    _
    _
    _) _ _
  rw [ok_bind, ok_fileAt (by exact hfile), ok_bind, ok_bind, ok_fileAt (by exact hfile), if_neg Bool.false_ne_true,
    ok_pure, ok_bind]
  unfold inodeClose inodeFree
  dsimp only
  rw [ok_bind, ok_inodeAt (by exact hino), ok_bind, ok_fsModify, if_pos rfl, ok_bind, ok_fsModify,
    if_neg Bool.false_ne_true,
    ok_fsModify, ok_fsModify]
  refine ⟨⟨fun p => ?_, fun g => ?_, ?_⟩, rfl, rfl, rfl, rfl⟩
  · simp only [opened, St.setFreeMap, St.setDisk, St.setInode, St.setFile, St.setOpen, update_idem]
    rw [update_apply, h.inodes, ite_self]
  · simp only [opened, St.setFreeMap, St.setDisk, St.setInode, St.setFile, St.setOpen, update_idem]
    rw [update_apply, h.files, ite_self]
  · exact List.erase_cons_head ..

/-- `dir_create` makes the root directory while only the free-map file, with
data from `st₀` on, is open. -/
theorem exits_dirCreate {st₀ : Nat} (m : List Bool) (hdev : u.devSize = dev) (hsize : dev < maxSectors)
    (hdin : u.dinode freeMapSector = ⟨st₀, byteCnt dev⟩) (hle : st₀ + bytesToSectors (byteCnt dev) ≤ dev)
    (h1 : u.freeMap rootDirSector = true) :
    Exits (dirCreate rootDirSector 16) (opened u m) (fun made s' => made = true → ∃ st₁ v disk,
      bitmapScan u.freeMap dev (bytesToSectors (dirEntries * entrySize)) = some st₁ ∧
      Saved (u.dinode freeMapSector) (bitmapSetMultiple u.freeMap st₁ (bytesToSectors (dirEntries * entrySize)) true)
        (opened u m.tail) v ∧
      Stored v.disk st₀ dev v.freeMap ∧ rootDirSector < dev ∧ s' = v.setDisk disk ∧
      NewInode rootDirSector st₁ (dirEntries * entrySize) v.disk disk) fun _ => True := by
  have hinode := opened_mapInode m.tail hdev hsize hdin hle
  have hmake := exits_inodeCreate (s := opened u m) (x := rootDirSector) (n := dirEntries * entrySize)
    (A := fun st v => bitmapScan u.freeMap dev (bytesToSectors (dirEntries * entrySize)) = some st ∧
      Saved (u.dinode freeMapSector) (bitmapSetMultiple u.freeMap st (bytesToSectors (dirEntries * entrySize)) true)
        (opened u m.tail) v ∧ Stored v.disk st₀ dev v.freeMap)
    ((ok_freeMapAllocate hinode _).mono fun r v hr st hst => by
      subst hst
      obtain ⟨hscan, hsaved, hstored⟩ := hr
      have hdevo : (opened u m.tail).devSize = dev := hdev
      rw [hdevo] at hscan hstored
      rw [hdin] at hstored
      exact ⟨hscan, hsaved, hstored⟩)
    fun st v ⟨hscan, hsaved, _⟩ => by
      have hvdev : v.devSize = dev := by
        rw [hsaved.rest]
        exact hdev
      rw [hvdev]
      exact ⟨(bitmapScan_some hscan).1, not_mem_scan hscan h1⟩
  refine hmake.mono (fun made s' hs hmade => ?_) fun _ => id
  obtain ⟨st₁, v, disk, ⟨hscan, hsaved, hstored⟩, hx, hs', hrest⟩ := hs hmade
  have hvdev : v.devSize = dev := by
    rw [hsaved.rest]
    exact hdev
  exact ⟨st₁, v, disk, hscan, hsaved, hstored, hvdev ▸ hx, hs', hrest⟩

/-- What `do_format` leaves on the device. -/
theorem exits_doFormat (h : Idle s) (hfile : s.freeMapFile = none) (h0 : s.freeMap freeMapSector = true)
    (h1 : s.freeMap rootDirSector = true) (hsize : s.devSize < maxSectors) :
    Exits doFormat s (fun _ s' => Idle s' ∧ s'.devSize = s.devSize ∧ (s.mem = [] → s'.mem = []) ∧
      ∃ st₀ st₁, Formatted s' st₀ st₁ ∧ Stored s'.disk st₀ s.devSize s'.freeMap) fun _ => True := by
  unfold doFormat
  refine exits_bind ((exits_freeMapCreate h hfile h0 hsize).mono ?_ fun _ => id)
  rintro _ _ ⟨u, m, st₀, rfl, hidle, hdev, hscan₀, hmap, hdin, hmem⟩
  obtain ⟨hle₀, hfree₀⟩ := bitmapScan_some hscan₀
  have hmap' : ∀ z, s.freeMap z = true → u.freeMap z = true := fun z hz => by
    rw [hmap, bitmapSetMultiple_apply, hz, ite_self]
  refine exits_bind ((exits_dirCreate m hdev hsize hdin hle₀ (hmap' _ h1)).mono ?_ fun _ => id)
  intro made w hw
  cases made with
  | false => exact exits_fail trivial
  | true =>
    obtain ⟨st₁, v, disk, hscan₁, hsaved, hstored, hone, rfl, hkeep, hroot, hzero⟩ := hw rfl
    obtain ⟨hle₁, hfree₁⟩ := bitmapScan_some hscan₁
    have hvmap : v.freeMap = bitmapSetMultiple u.freeMap st₁ (bytesToSectors (dirEntries * entrySize)) true := by
      rw [hsaved.rest]
      rfl
    have hv : v.setDisk disk = ((opened u v.mem).setFreeMap v.freeMap).setDisk disk := by
      rw [hsaved.rest]
      rfl
    rw [if_pos rfl, hv]
    refine ((ok_freeMapClose_opened hidle v.mem v.freeMap disk).mono ?_).exits
    rintro _ s' ⟨hidle', rfl, hfm, hdev', hmem'⟩
    rw [hdev] at hdev'
    -- a sector in the run of the map is neither inode, and used when the directory's run is found
    have hrun₀ : ∀ z, st₀ ≤ z → z < st₀ + bytesToSectors (byteCnt s.devSize) →
        z ≠ freeMapSector ∧ z ≠ rootDirSector ∧ u.freeMap z = true := fun z hz hz' => by
      refine ⟨?_, ?_, ?_⟩
      · rintro rfl
        rw [hfree₀ _ hz hz'] at h0
        cases h0
      · rintro rfl
        rw [hfree₀ _ hz hz'] at h1
        cases h1
      · rw [hmap, bitmapSetMultiple_apply, if_pos ⟨hz, hz'⟩]
    have hdata₀ : ∀ z, st₀ ≤ z → z < st₀ + bytesToSectors (byteCnt s.devSize) → s'.disk z = v.disk z :=
      fun z hz hz' => by
        obtain ⟨-, hne, hused⟩ := hrun₀ z hz hz'
        exact hkeep z hne (not_mem_scan hscan₁ hused)
    have hmap₀ : s'.disk freeMapSector = u.disk freeMapSector := by
      rw [hkeep _ (by decide) (not_mem_scan hscan₁ (hmap' _ h0)), hsaved.disk]
      · rfl
      · rw [hdin]
        exact fun hd => (hrun₀ _ hd.1 hd.2).1 rfl
    have hmarked : ∀ z, u.freeMap z = true → s'.freeMap z = true := fun z hz => by
      rw [hfm, hvmap, bitmapSetMultiple_apply, hz, ite_self]
    refine ⟨hidle', hdev', fun hnil => ?_, st₀, st₁, ?_, fun i hi => ?_⟩
    · rw [hmem']
      refine hsaved.mem ?_
      change m.tail = []
      rw [hmem hnil]
      rfl
    · have hsmall : s.devSize < 2 ^ 32 := Nat.lt_trans hsize (by decide)
      have hlen : dirEntries * entrySize < 2 ^ 32 := by decide
      exact {
        devSize := by rw [hdev']; exact hsize
        one_lt := by rw [hdev']; exact hone
        map := by rw [hdev', ← hdin, St.dinode, hmap₀]; rfl
        root := readInode_block (by change st₁ < _; omega) hlen hroot
        mapRange := by rw [hdev']; exact hle₀
        rootRange := by rw [hdev']; exact hle₁
        mapFree := by rw [hdev']; exact fun z hz hz' => ⟨(hrun₀ z hz hz').1, (hrun₀ z hz hz').2.1⟩
        rootFree := by
          rw [hdev']
          intro z hz hz'
          have hfree := hfree₁ z hz hz'
          refine ⟨?_, ?_, fun hrun => ?_⟩
          · rintro rfl
            rw [hmap' _ h0] at hfree
            cases hfree
          · rintro rfl
            rw [hmap' _ h1] at hfree
            cases hfree
          · rw [(hrun₀ z hrun.1 hrun.2).2.2] at hfree
            cases hfree
        marked := by
          rw [hdev']
          rintro z (rfl | rfl | hz | hz)
          · exact hmarked _ (hmap' _ h0)
          · exact hmarked _ (hmap' _ h1)
          · exact hmarked _ (hrun₀ z hz.1 hz.2).2.2
          · rw [hfm, hvmap, bitmapSetMultiple_apply, if_pos hz]
        zero := hzero }
    · have hread : readBytes s'.disk st₀ 0 (byteCnt s.devSize) = readBytes v.disk st₀ 0 (byteCnt s.devSize) := by
        refine readBytes_congr fun j hj => ?_
        rw [Nat.zero_add]
        have hlt : j / sectorSize < bytesToSectors (byteCnt s.devSize) := by
          rw [bytesToSectors_of_small (byteCnt_small hsize)]
          simp only [sectorSize]
          omega
        exact congrFun (hdata₀ _ (Nat.le_add_right ..) (Nat.add_lt_add_left hlt _)) _
      rw [hread, hfm]
      exact hstored i hi

/-- The layout of a formatted device with the map as it is read back. -/
theorem Formatted.setFreeMap {st₀ st₁ : Nat} (h : Formatted s st₀ st₁)
    (hb : ∀ i < s.devSize, b i = s.freeMap i) : Formatted (s.setFreeMap b) st₀ st₁ where
  devSize := h.devSize
  one_lt := h.one_lt
  map := h.map
  root := h.root
  mapRange := h.mapRange
  rootRange := h.rootRange
  mapFree := h.mapFree
  rootFree := h.rootFree
  marked z hz := by
    have hlt : z < s.devSize := by
      have h1 : 1 < s.devSize := h.one_lt
      have h2 := h.mapRange
      have h3 := h.rootRange
      rcases hz with rfl | rfl | hz | hz
      · exact Nat.zero_lt_of_lt h1
      · exact h1
      · exact Nat.lt_of_lt_of_le hz.2 h2
      · exact Nat.lt_of_lt_of_le hz.2 h3
    rw [St.setFreeMap_freeMap, hb z hlt]
    exact h.marked z hz
  zero := h.zero

/-- `free_map_init` marks the two inodes that are always there. -/
theorem exits_freeMapInit {bits : Nat → Bool} :
    Exits (freeMapInit bits) s (fun _ s' => ∃ m b, s' = (s.setFreeMap b).setMem m ∧ (s.mem = [] → m = []) ∧
      b freeMapSector = true ∧ b rootDirSector = true) fun _ => s.mem ≠ [] := by
  unfold freeMapInit
  refine exits_bind (ok_malloc.mpr ?_).exits
  cases hm : s.mem.headD true with
  | false => exact exits_fail (mem_ne_nil hm)
  | true =>
    refine exits_bind (ok_malloc.mpr ?_).exits
    refine exits_bind (ok_fsGet.mpr ?_).exits
    split
    next =>
      refine ((ok_fsModify _).mpr ⟨s.mem.tail.tail, _, rfl, fun hnil => by rw [hnil]; rfl, ?_, ?_⟩).exits
      · rfl
      · rfl
    next hno =>
      refine exits_fail fun hnil => hno (.inl ?_)
      simp only [St.setMem_mem, hnil]
      rfl

/-- Formatting a device of fewer than `maxSectors` sectors: the kernel panics,
or the file system is well formed and its map is on the device. -/
theorem exits_format {disk : Nat → Block} {mem : List Bool} {bits : Nat → Bool} (hsize : dev < maxSectors) :
    Exits (filesysInit bits true) (powerOn dev disk mem) (fun _ s' => Wf s' noHold ∧ s'.Synced ∧ s'.devSize = dev ∧
      (mem = [] → s'.mem = []) ∧ (∀ k < dirEntries, (s'.slot k).inUse = false) ∧ ∀ g, ¬ s'.Handle g)
      fun _ => True := by
  unfold filesysInit
  refine exits_bind ((ok_fsModify _).mpr ?_).exits
  refine exits_bind (exits_freeMapInit.mono ?_ fun _ _ => trivial)
  rintro _ _ ⟨m, b, rfl, hm, h0, h1⟩
  rw [if_pos rfl]
  have hidle : Idle ((((powerOn dev disk mem).setOpen []).setFreeMap b).setMem m) :=
    ⟨fun _ => rfl, fun _ => rfl, rfl⟩
  refine exits_bind ((exits_doFormat hidle rfl h0 h1 hsize).mono ?_ fun _ => id)
  rintro _ s' ⟨hidle', hdev, hmem, st₀, st₁, hf, hst⟩
  have hdin := hf.map
  have hb : ∀ i < s'.devSize,
      bitmapOfBytes (readBytes s'.disk (s'.dinode freeMapSector).start 0 (byteCnt s'.devSize)) s'.devSize i =
        s'.freeMap i := by
    rw [hdin, hdev]
    exact hst
  refine (exits_freeMapOpen hidle' ((hf.setFreeMap hb).layout hidle'.inodes) rfl).mono ?_ fun _ _ => trivial
  rintro _ s'' ⟨hw, hs, hdisk, -, hdev', hmem', hh⟩
  refine ⟨hw, hs, hdev'.trans hdev, fun hnil => hmem' (hmem (hm hnil)), fun k hk => ?_, hh⟩
  rw [St.slot, St.root, St.dinode, hdisk]
  exact hf.slot_free hk

/-! ## Closing and opening again -/

/-- `filesys_done` leaves the device alone. -/
theorem ok_filesysDone {e : Nat → Nat} (h : Wf s e) :
    Ok filesysDone s fun _ s' => s'.disk = s.disk ∧ s'.devSize = s.devSize := by
  obtain ⟨g, f, i, hg, hf, hd, hi, hsec⟩ := h.heap.map
  have hkept : i.removed ≠ true := fun hr => (h.layout.removed _ i hi hr).1 hsec
  unfold filesysDone freeMapClose
  rw [ok_bind, ok_fsGet, hg]
  dsimp only
  unfold fileClose fileAllowWrite
  rw [ok_bind, ok_fileAt hf, ok_bind, ok_bind, ok_fileAt hf, hd, if_neg Bool.false_ne_true, ok_pure, ok_bind]
  refine (ok_inodeClose_closed (d := s.dinode freeMapSector) hi fun hr => absurd hr hkept).mono fun _ u hc => ?_
  rw [ok_fsModify]
  cases hc with
  | keep _ hs => rw [hs]; exact ⟨rfl, rfl⟩
  | free _ _ hs => rw [hs]; exact ⟨rfl, rfl⟩
  | release _ hr => exact absurd hr hkept

/-- Without open inodes and with the map as it is read back, the layout is
still sound. -/
theorem Layout.reboot {s' : St} (hl : Layout s) (hidle : Idle s') (hdev : s'.devSize = s.devSize)
    (hdisk : s'.disk = s.disk) (hmap : ∀ i < s.devSize, s'.freeMap i = s.freeMap i) : Layout s' := by
  refine hl.frame hdev (fun p i hi => ?_) (fun _ _ => by rw [hdisk]) (fun _ _ => by rw [hdisk]) fun x hx z hz => ?_
  · rw [hidle.inodes] at hi
    cases hi
  · have hlive : x ∈ s.live := by
      rcases hx with hx | hx | hx | ⟨p, i, hi, -⟩
      · exact .inl hx
      · exact .inr (.inl hx)
      · exact .inr (.inr (.inl hx))
      · rw [hidle.inodes] at hi
        cases hi
    have hlt : z < s.devSize := by
      rcases hz with rfl | hz
      · exact hl.lt_dev _ hlive
      · exact (hl.onDevice x hlive).lt_dev hz
    rw [hmap z hlt]
    exact hl.used_of_mem hlive hz

/-- A kernel that starts on the device as another left it. -/
theorem exits_reboot {e : Nat → Nat} (mem : List Bool) (bits : Nat → Bool) (h : Wf s e) (hs : s.Synced) :
    Exits (filesysInit bits false) (powerOn s.devSize s.disk mem) (fun _ s' => Wf s' noHold ∧ s'.Synced ∧
      s'.devSize = s.devSize ∧ s'.disk = s.disk ∧ (∀ i < s.devSize, s'.freeMap i = s.freeMap i) ∧
      (mem = [] → s'.mem = []) ∧ ∀ g, ¬ s'.Handle g) fun _ => mem ≠ [] := by
  unfold filesysInit
  refine exits_bind ((ok_fsModify _).mpr ?_).exits
  refine exits_bind (exits_freeMapInit.mono ?_ fun _ => id)
  rintro _ _ ⟨m, b, rfl, hm, -, -⟩
  have hidle : Idle ((((powerOn s.devSize s.disk mem).setOpen []).setFreeMap b).setMem m) :=
    ⟨fun _ => rfl, fun _ => rfl, rfl⟩
  rw [if_neg Bool.false_ne_true]
  have hl : Layout (((((powerOn s.devSize s.disk mem).setOpen []).setFreeMap b).setMem m).setFreeMap
      (bitmapOfBytes (readBytes s.disk (s.dinode freeMapSector).start 0 (byteCnt s.devSize)) s.devSize)) :=
    h.layout.reboot ⟨hidle.inodes, hidle.files, hidle.openInodes⟩ rfl rfl hs
  refine (exits_freeMapOpen hidle hl rfl).mono ?_ fun _ hne hnil => hne (hm hnil)
  rintro _ s' ⟨hw, hsync, hdisk, hmap, hdev, hmem, hh⟩
  exact ⟨hw, hsync, hdev, hdisk, fun i hi => by rw [hmap]; exact hs i hi, fun hnil => hmem (hm hnil), hh⟩

end Pintos.Fs
