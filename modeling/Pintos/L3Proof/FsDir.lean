import Pintos.L3Proof.FsEntries

/-!
# The root directory

The loops of directory.c over the 16 entries of the root directory, and what
adding and erasing an entry do to the layout: a new entry names an inode whose
sectors nobody owns, an erased entry makes an inode go.
-/
namespace Pintos.Fs

open Pintos.Core

variable {s : St} {e : Nat → Nat} {p : Nat} {r : Inode}

/-- `p` holds the inode of the root directory. -/
structure St.RootAt (s : St) (p : Nat) (r : Inode) : Prop where
  inode : s.inodes p = some r
  sector : r.sector = rootDirSector

/-- Entry `k` is in use for `name`. -/
def St.Has (s : St) (name : Name) (k : Nat) : Prop := (s.slot k).inUse = true ∧ (s.slot k).name = name.chars

namespace Wf

theorem root_data (h : Wf s e) (hr : s.RootAt p r) : r.data = s.root := by
  rw [h.layout.data p r hr.inode, hr.sector]
  rfl

theorem root_length (h : Wf s e) (hr : s.RootAt p r) : r.data.length = dirEntries * entrySize := by
  rw [h.root_data hr]
  exact h.layout.rootLength

end Wf

theorem Wf.dirAt (h : Wf s e) (hr : s.RootAt p r) : s.DirAt p r dirEntries :=
  ⟨hr.inode, (h.onDevice hr.inode).fits, h.root_length hr⟩

theorem St.slot_eq_entryOf (s : St) (k : Nat) :
    s.slot k = entryOf (readBytes s.disk s.root.start (k * entrySize) entrySize) :=
  s.entry_eq_entryOf s.root k

/-- `lookup` finds an entry for the name. -/
theorem ok_lookup (h : Wf s e) (hr : s.RootAt p r) (name : Name) :
    Ok (lookup p name) s fun found s' => ∃ m', s' = s.setMem m' ∧ (s.mem = [] → m' = []) ∧
      match found with
      | none => s.mem = [] → ∀ j < dirEntries, ¬ s.Has name j
      | some (bs, ofs) => ∃ j < dirEntries, ofs = j * entrySize ∧ s.Has name j ∧
          bs = readBytes s.disk s.root.start (j * entrySize) entrySize := by
  have hfound := (h.dirAt hr).ok_lookup name
  rw [h.root_data hr] at hfound
  exact hfound

/-! ## Writing an entry -/

variable {bs : List Byte} {j x : Nat}

/-- A write of one entry changes that entry. -/
theorem Layout.slot_write (hl : Layout s) {disk : Nat → Block}
    (hbs : bs.length = entrySize) (hj : j < dirEntries)
    (hdisk : disk = writeBytes s.disk s.root.start (j * entrySize) bs) (m : List Bool) :
    (∀ z, ¬ s.root.Data z → disk z = s.disk z) ∧
      ∀ k, ((s.setDisk disk).setMem m).slot k = if k = j then entryOf bs else s.slot k := by
  have hle : j * entrySize + bs.length ≤ s.root.length := by
    rw [hbs, hl.rootLength]
    simp only [dirEntries, entrySize] at *
    omega
  have hout : ∀ z, ¬ s.root.Data z → disk z = s.disk z := fun z hz => by
    rw [hdisk]
    exact (hl.onDevice _ s.root_mem).writeBytes_of_not_data hle hz
  have hroot : ((s.setDisk disk).setMem m).root = s.root := by
    simp only [St.root, St.dinode, St.setMem_disk, St.setDisk_disk]
    rw [hout _ (hl.apart _ s.root_mem)]
  refine ⟨hout, fun k => ?_⟩
  unfold St.slot
  rw [hroot]
  exact entry_write hbs m k hdisk

/-- Sector `x` holds an inode that nobody owns yet, with sectors marked used. -/
structure Fresh (s : St) (x : Nat) : Prop where
  disjoint : ∀ y ∈ s.live, Disjoint (s.extent x) (s.extent y)
  used : ∀ z ∈ s.extent x, s.freeMap z = true
  apart : ¬ (s.dinode x).Data x
  lt_dev : x < s.devSize
  onDevice : (s.dinode x).OnDevice s.devSize

theorem Fresh.not_mem (h : Fresh s x) : x ∉ s.live := fun hx =>
  Set.disjoint_left.mp (h.disjoint x hx) (.inl rfl) (.inl rfl)

/-- The inode's sectors are not in the directory. -/
theorem Fresh.not_data {y z : Nat} (h : Fresh s x) (hy : y ∈ s.live) (hz : z ∈ s.extent x) : ¬ (s.dinode y).Data z :=
  fun hd => Set.disjoint_left.mp (h.disjoint y hy) hz (.inr hd)

/-- An entry is written that is not in use or names a fresh inode. -/
theorem Layout.setSlot (hl : Layout s) {disk : Nat → Block} {m : List Bool} {ent : Entry}
    (hout : ∀ z, ¬ s.root.Data z → disk z = s.disk z)
    (hslot : ∀ k, ((s.setDisk disk).setMem m).slot k = if k = j then ent else s.slot k)
    (hent : ent.inUse = true → Fresh s ent.inodeSector) : Layout ((s.setDisk disk).setMem m) := by
  have hdin : ∀ x ∈ s.live, ((s.setDisk disk).setMem m).dinode x = s.dinode x := fun x hx => by
    simp only [St.dinode, St.setMem_disk, St.setDisk_disk]
    rw [hout x (hl.not_data s.root_mem hx)]
  have hfresh : ∀ x, Fresh s x → ((s.setDisk disk).setMem m).dinode x = s.dinode x := fun x hx => by
    simp only [St.dinode, St.setMem_disk, St.setDisk_disk]
    rw [hout x (hx.not_data s.root_mem (.inl rfl))]
  have hnamed : ∀ x, ((s.setDisk disk).setMem m).Named x →
      (ent.inUse = true ∧ x = ent.inodeSector) ∨ s.Named x := by
    rintro x ⟨k, hk, huse, rfl⟩
    rw [hslot] at huse ⊢
    split at huse
    next hkj => exact .inl ⟨huse, by rw [if_pos hkj]⟩
    next hkj => exact .inr ⟨k, hk, huse, by rw [if_neg hkj]⟩
  have hlive : ∀ x ∈ ((s.setDisk disk).setMem m).live, (ent.inUse = true ∧ x = ent.inodeSector) ∨ x ∈ s.live := by
    rintro x (hx | hx | hx | hx)
    · exact .inr (.inl hx)
    · exact .inr (.inr (.inl hx))
    · rcases hnamed x hx with h | h
      · exact .inl h
      · exact .inr (St.named_mem h)
    · exact .inr (.inr (.inr (.inr hx)))
  have hboth : ∀ x ∈ ((s.setDisk disk).setMem m).live,
      ((s.setDisk disk).setMem m).dinode x = s.dinode x ∧ (Fresh s x ∨ x ∈ s.live) := by
    intro x hx
    rcases hlive x hx with ⟨huse, rfl⟩ | hx
    · exact ⟨hfresh _ (hent huse), .inl (hent huse)⟩
    · exact ⟨hdin x hx, .inr hx⟩
  have hext : ∀ x ∈ ((s.setDisk disk).setMem m).live, ((s.setDisk disk).setMem m).extent x = s.extent x :=
    fun x hx => by simp only [St.extent, (hboth x hx).1]
  have hin : ∀ p i, s.inodes p = some i → ((s.setDisk disk).setMem m).dinode i.sector = s.dinode i.sector :=
    fun p i hi => hdin _ (St.open_mem hi)
  exact {
    devSize := hl.devSize
    owned := by
      have hold : Owned ((s.setDisk disk).setMem m).live s.extent s.used := by
        by_cases huse : ent.inUse = true
        · refine hl.owned.insert (hent huse).disjoint (hent huse).used fun y hy => ?_
          rcases hlive y hy with ⟨-, rfl⟩ | hy
          · exact .inl rfl
          · exact .inr hy
        · refine hl.owned.mono (fun y hy => ?_) (fun _ _ => rfl) fun y hy => ?_
          · rcases hlive y hy with ⟨h, -⟩ | hy
            · exact absurd h huse
            · exact hy
          · rcases hlive y hy with ⟨h, -⟩ | hy
            · exact absurd h huse
            · exact hl.owned.sub y hy
      exact hold.mono (fun _ hx => hx) hext fun x hx => hold.sub x hx
    apart := fun x hx => by
      obtain ⟨hd, h | h⟩ := hboth x hx
      · rw [hd]; exact h.apart
      · rw [hd]; exact hl.apart x h
    lt_dev := fun x hx => by
      obtain ⟨-, h | h⟩ := hboth x hx
      · exact h.lt_dev
      · exact hl.lt_dev x h
    onDevice := fun x hx => by
      obtain ⟨hd, h | h⟩ := hboth x hx
      · rw [hd]; exact h.onDevice
      · rw [hd]; exact hl.onDevice x h
    data := fun p i hi => by rw [hin p i hi]; exact hl.data p i hi
    rootLength := (congrArg DiskInode.length (hdin _ s.root_mem)).trans hl.rootLength
    mapLength := (congrArg DiskInode.length (hdin _ s.map_mem)).trans hl.mapLength
    slots := fun k l hk hl' huk hul heq => by
      -- the new entry names an inode that no other entry names
      have hother : ∀ i, i < dirEntries → i ≠ j → (s.slot i).inUse = true → ent.inUse = true →
          (s.slot i).inodeSector ≠ ent.inodeSector := fun i hi _ hui huse he =>
        (hent huse).not_mem (he ▸ St.named_mem ⟨i, hi, hui, rfl⟩)
      rw [hslot] at huk hul heq
      rw [hslot] at heq
      by_cases hkj : k = j
      · by_cases hlj : l = j
        · rw [hkj, hlj]
        · rw [if_pos hkj] at huk heq
          rw [if_neg hlj] at hul heq
          exact absurd heq.symm (hother l hl' hlj hul huk)
      · by_cases hlj : l = j
        · rw [if_neg hkj] at huk heq
          rw [if_pos hlj] at hul heq
          exact absurd heq (hother k hk hkj huk hul)
        · rw [if_neg hkj] at huk heq
          rw [if_neg hlj] at hul heq
          exact hl.slots k l hk hl' huk hul heq
    named := fun x hx => by
      rcases hnamed x hx with ⟨huse, rfl⟩ | h
      · refine ⟨fun h0 => (hent huse).not_mem ?_, fun h1 => (hent huse).not_mem ?_⟩
        · rw [h0]; exact s.map_mem
        · rw [h1]; exact s.root_mem
      · exact hl.named x h
    removed := fun p i hi hr => by
      obtain ⟨h0, h1, hn⟩ := hl.removed p i hi hr
      refine ⟨h0, h1, fun hx => ?_⟩
      rcases hnamed _ hx with ⟨huse, he⟩ | h
      · exact (hent huse).not_mem (he ▸ St.open_mem hi)
      · exact hn h }

/-! ## `dir_add` and `dir_remove` -/

/-- One entry of the directory, `bs`, is written as a whole or not at all: the
directory is smaller than a sector. -/
theorem Layout.wroteSlot (hl : Layout s) (hbs : bs.length = entrySize) {k : Nat}
    (hj : j ≤ dirEntries) {m m' : List Bool} {s' : St}
    (hs' : s' = (s.setDisk (writeBytes s.disk s.root.start (j * entrySize) (bs.take k))).setMem m')
    (hu : Upto (j * entrySize) (min entrySize (dirEntries * entrySize - j * entrySize)) m k m') :
    (k ≠ entrySize ∧ s' = s.setMem m' ∧ (m = [] → j = dirEntries)) ∨
      (k = entrySize ∧ j < dirEntries ∧ ∃ disk, s' = (s.setDisk disk).setMem m' ∧
        (∀ z, ¬ s.root.Data z → disk z = s.disk z) ∧
        ∀ k, ((s.setDisk disk).setMem m').slot k = if k = j then entryOf bs else s.slot k) := by
  have hfull := hu.full
  have hwhole : k = min entrySize (dirEntries * entrySize - j * entrySize) ∨ k = 0 := by
    refine hu.whole ?_
    have hlt : j * entrySize < sectorSize := by
      simp only [dirEntries, entrySize, sectorSize] at *
      omega
    rw [Nat.mod_eq_of_lt hlt]
    simp only [dirEntries, entrySize, sectorSize] at *
    omega
  by_cases hk : k = entrySize
  · have hjlt : j < dirEntries := by
      simp only [dirEntries, entrySize] at *
      omega
    refine .inr ⟨hk, hjlt, writeBytes s.disk s.root.start (j * entrySize) bs, ?_, ?_⟩
    · rw [hs', List.take_of_length_le (by rw [hbs, hk])]
    · exact hl.slot_write hbs hjlt rfl m'
  · refine .inl ⟨hk, ?_, fun hm => ?_⟩
    · have hk0 : k = 0 := by
        simp only [dirEntries, entrySize] at *
        omega
      rw [hs', hk0, List.take_zero, writeBytes_nil]
      rfl
    · have := (hfull hm).1
      simp only [dirEntries, entrySize] at *
      omega

theorem ok_writeSlot (h : Wf s e) (hr : s.RootAt p r) (hbs : bs.length = entrySize)
    (hj : j ≤ dirEntries) (m : List Bool) :
    Ok (inodeWriteAt p bs ((j * entrySize : Nat) : Int)) (s.setMem m) fun k s' => ∃ m', (m = [] → m' = []) ∧
      ((k ≠ entrySize ∧ s' = s.setMem m' ∧ (m = [] → j = dirEntries)) ∨
        (k = entrySize ∧ j < dirEntries ∧ ∃ disk, s' = (s.setDisk disk).setMem m' ∧
          (∀ z, ¬ s.root.Data z → disk z = s.disk z) ∧
          ∀ k, ((s.setDisk disk).setMem m').slot k = if k = j then entryOf bs else s.slot k)) := by
  refine ((h.dirAt hr).ok_writeEntry (h.writable hr.inode (.inr hr.sector)) bs j m).mono ?_
  rintro k s' ⟨m', hs', hu⟩
  rw [h.root_data hr] at hs'
  rw [hbs] at hu
  exact ⟨m', fun hm => (hu.full hm).2, h.layout.wroteSlot hbs hj hs' hu⟩

/-- The directory after `dir_add`: as before, or with an entry for the name. -/
theorem ok_dirAdd (h : Wf s e) (hr : s.RootAt p r) (name : Name) (hx : x < 2 ^ 32) (buf : List Byte) :
    Ok (dirAdd p name x buf) s fun ok s' => ∃ m', (s.mem = [] → m' = []) ∧
      match ok with
      | false => s' = s.setMem m' ∧ (s.mem = [] → ¬ name.Valid ∨ (∃ j < dirEntries, s.Has name j) ∨
          ∀ j < dirEntries, (s.slot j).inUse = true)
      | true => name.Valid ∧ ∃ j < dirEntries, ∃ disk, s' = (s.setDisk disk).setMem m' ∧
          (∀ z, ¬ s.root.Data z → disk z = s.disk z) ∧
          (∀ k, ((s.setDisk disk).setMem m').slot k = if k = j then ⟨x, name.chars, true⟩ else s.slot k) ∧
          (s.mem = [] → (s.slot j).inUse = false ∧ ∀ k < dirEntries, ¬ s.Has name k) := by
  refine ((h.dirAt hr).ok_dirAdd (h.writable hr.inode (.inr hr.sector)) name x buf).mono ?_
  intro ok s' hadd
  rw [h.root_data hr] at hadd
  cases hadd with
  | refused hm hno =>
    refine ⟨_, hm, rfl, fun _ => ?_⟩
    rcases hno with hno | hhas
    · exact .inl hno
    · exact .inr (.inl hhas)
  | written hname hm habsent hj hused hfree hu =>
    refine ⟨_, fun h0 => (hu.full (hm h0)).2, ?_⟩
    rcases h.layout.wroteSlot (length_newEntry _ name x) hj rfl hu with
      ⟨hne, hs', hend⟩ | ⟨hk, hlt, disk, hs', hout, hslot⟩
    · rw [decide_eq_false hne]
      refine ⟨hs', fun h0 => .inr (.inr fun l hl => ?_)⟩
      exact hused h0 l (by rw [hend (hm h0)]; exact hl)
    · rw [decide_eq_true hk]
      rw [entryOf_newEntry _ hname hx] at hslot
      exact ⟨hname, _, hlt, disk, hs', hout, hslot, fun h0 => ⟨hfree h0 hlt, habsent h0⟩⟩

/-- An open inode that nothing names is marked removed. -/
theorem Wf.setRemoved (h : Wf s e) {i : Inode} (hi : s.inodes p = some i) (hn : ¬ s.Named i.sector)
    (h0 : i.sector ≠ freeMapSector) (h1 : i.sector ≠ rootDirSector) :
    Wf (s.setInode p (some { i with removed := true })) e := by
  have hl := h.layout
  refine ⟨h.heap.setInode hi rfl (h.heap.openCnt p i hi) (h.heap.denyCnt p i hi) fun _ _ => rfl, ?_⟩
  have hino : ∀ q j, (s.setInode p (some { i with removed := true })).inodes q = some j →
      ∃ k, s.inodes q = some k ∧ k.sector = j.sector ∧ k.data = j.data ∧
        (j.removed = true → k.removed = true ∨ q = p) := by
    intro q j hj
    rw [St.setInode_inodes] at hj
    by_cases hq : q = p
    · subst hq
      rw [Function.update_self] at hj
      cases hj
      exact ⟨i, hi, rfl, rfl, fun _ => .inr rfl⟩
    · rw [Function.update_of_ne hq] at hj
      exact ⟨j, hj, rfl, rfl, .inl⟩
  refine hl.frame rfl (fun q j hj => ?_) (fun _ _ => rfl) (fun _ _ => rfl) fun x hx z hz => hl.used_of_mem ?_ hz
  · obtain ⟨k, hk, hsec, hdata, hr⟩ := hino q j hj
    rw [← hsec, ← hdata]
    refine ⟨St.open_mem hk, hl.data q k hk, fun hj' => ?_⟩
    rcases hr hj' with hr | rfl
    · exact hl.removed q k hk hr
    · rw [hi] at hk
      cases hk
      exact ⟨h0, h1, hn⟩
  · rcases hx with hx | hx | hx | ⟨q, j, hj, rfl⟩
    · exact .inl hx
    · exact .inr (.inl hx)
    · exact .inr (.inr (.inl hx))
    · obtain ⟨k, hk, hsec, -⟩ := hino q j hj
      rw [← hsec]
      exact St.open_mem hk

end Pintos.Fs

