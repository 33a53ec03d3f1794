import Pintos.L3Proof.FsHeap

/-!
# Opening and closing inodes and files

One spec for each function of inode.c and file.c that takes or drops a
reference. `Calm` is what they have in common: on the device only the data of
the free-map file may change, and it follows the map.
-/
namespace Pintos.Fs

open Pintos.Core Function

/-- The file of the map holds the map. -/
def St.Synced (s : St) : Prop := Stored s.disk (s.dinode freeMapSector).start s.devSize s.freeMap

/-- What a handle refers to: the sector of its inode, and its position. -/
def St.view (s : St) (g : Nat) : Option (Nat × Nat) :=
  (s.files g).bind fun f => (s.inodes f.inode).map fun i => (i.sector, f.pos)

/-- On the device only the data of the free-map file may differ. -/
structure Calm (s s' : St) : Prop where
  devSize : s'.devSize = s.devSize
  mapFile : s'.freeMapFile = s.freeMapFile
  disk : ∀ z, ¬ (s.dinode freeMapSector).Data z → s'.disk z = s.disk z
  mem : s.mem = [] → s'.mem = []
  synced : s.mem = [] → s.Synced → s'.Synced

/-- A file that was removed: its inode is open still and gives the sectors back
when it is closed, or they are back in the map. -/
def St.Gone (s : St) (x : Nat) (d : DiskInode) : Prop :=
  (∃ p i, s.inodes p = some i ∧ i.sector = x ∧ i.data = d ∧ i.removed = true) ∨
    ∀ z, z = x ∨ d.Data z → s.freeMap z = false

/-- Nothing is allocated, and removed files stay removed. -/
structure Tame (s s' : St) : Prop extends Calm s s' where
  gone : ∀ x d, s.Gone x d → s'.Gone x d

/-- The handles are the same as well. -/
structure Quiet (s s' : St) : Prop extends Tame s s' where
  files : s'.files = s.files
  view : s'.view = s.view

namespace Calm

variable {s s' s'' : St}

theorem of_disk_eq (hdev : s'.devSize = s.devSize) (hfile : s'.freeMapFile = s.freeMapFile)
    (hdisk : s'.disk = s.disk) (hmap : s'.freeMap = s.freeMap) (hmem : s.mem = [] → s'.mem = []) : Calm s s' where
  devSize := hdev
  mapFile := hfile
  disk z _ := by rw [hdisk]
  mem := hmem
  synced _ h := by
    unfold St.Synced St.dinode at *
    rwa [hdisk, hdev, hmap]

theorem refl (s : St) : Calm s s := of_disk_eq rfl rfl rfl rfl id

theorem dinode_map (h : Calm s s') (hl : Layout s) : s'.dinode freeMapSector = s.dinode freeMapSector := by
  simp only [St.dinode, h.disk _ (hl.apart _ s.map_mem)]

theorem trans (h : Calm s s') (h' : Calm s' s'') (hl : Layout s) : Calm s s'' where
  devSize := h'.devSize.trans h.devSize
  mapFile := h'.mapFile.trans h.mapFile
  disk z hz := by
    rw [h'.disk z (by rwa [h.dinode_map hl]), h.disk z hz]
  mem hm := h'.mem (h.mem hm)
  synced hm hs := h'.synced (h.mem hm) (h.synced hm hs)

/-- A change of the map that is written to its file. -/
theorem of_saved {b : Nat → Bool} (hl : Layout s) (h : Saved (s.dinode freeMapSector) b s s')
    (hst : s.mem = [] → s.Synced → Stored s'.disk (s.dinode freeMapSector).start s.devSize s'.freeMap) :
    Calm s s' where
  devSize := by rw [h.rest]; rfl
  mapFile := by rw [h.rest]; rfl
  disk := h.disk
  mem := h.mem
  synced hm hs := by
    have hdin : s'.dinode freeMapSector = s.dinode freeMapSector := by
      simp only [St.dinode, h.disk _ (hl.apart _ s.map_mem)]
    have hdev : s'.devSize = s.devSize := by rw [h.rest]; rfl
    unfold St.Synced
    rw [hdin, hdev]
    exact hst hm hs

end Calm

variable {s s' : St} {x p z : Nat} {d : DiskInode} {i : Inode} {b : Nat → Bool} {e : Nat → Nat}

theorem St.Gone.mono (h : s.Gone x d)
    (hino : ∀ p i, s.inodes p = some i → i.removed = true →
      ∃ j, s'.inodes p = some j ∧ j.sector = i.sector ∧ j.data = i.data ∧ j.removed = true)
    (hmap : s'.freeMap = s.freeMap) : s'.Gone x d := by
  rcases h with ⟨p, i, hi, rfl, rfl, hr⟩ | h
  · obtain ⟨j, hj, hsec, hdata, hr'⟩ := hino p i hi hr
    exact .inl ⟨p, j, hj, hsec, hdata, hr'⟩
  · exact .inr fun z hz => by rw [hmap, h z hz]

theorem St.Gone.of_eq (h : s.Gone x d) (hino : s'.inodes = s.inodes)
    (hmap : s'.freeMap = s.freeMap) : s'.Gone x d :=
  h.mono (fun p i hi hr => ⟨i, by rw [hino, hi], rfl, rfl, hr⟩) hmap

/-- The inode at `p` changes its counts. -/
theorem St.Gone.setInode {j : Inode} (h : s.Gone x d) (hi : s.inodes p = some i)
    (hsec : j.sector = i.sector) (hdata : j.data = i.data) (hr : i.removed = true → j.removed = true) :
    (s.setInode p (some j)).Gone x d := by
  refine h.mono (fun q k hk hkr => ?_) rfl
  rw [St.setInode_inodes]
  by_cases hq : q = p
  · subst hq
    rw [hi] at hk
    cases hk
    exact ⟨j, update_self .., hsec, hdata, hr hkr⟩
  · exact ⟨k, by rwa [update_of_ne hq], rfl, rfl, hkr⟩

theorem Tame.refl (s : St) : Tame s s := ⟨.refl s, fun _ _ => id⟩

theorem Tame.trans {s'' : St} (h : Tame s s') (h' : Tame s' s'') (hl : Layout s) : Tame s s'' where
  toCalm := h.toCalm.trans h'.toCalm hl
  gone x d hx := h'.gone x d (h.gone x d hx)

theorem Quiet.trans {s'' : St} (h : Quiet s s') (h' : Quiet s' s'') (hl : Layout s) : Quiet s s'' where
  toTame := h.toTame.trans h'.toTame hl
  files := h'.files.trans h.files
  view := h'.view.trans h.view

/-- Handles refer to the same when their inodes keep their sectors. -/
theorem view_eq (hfiles : s'.files = s.files)
    (hino : ∀ g f, s.files g = some f →
      (s'.inodes f.inode).map Inode.sector = (s.inodes f.inode).map Inode.sector) : s'.view = s.view := by
  funext g
  unfold St.view
  rw [hfiles]
  cases hf : s.files g with
  | none => rfl
  | some f =>
    have := congrArg (Option.map fun x => (x, f.pos)) (hino g f hf)
    rw [Option.map_map, Option.map_map] at this
    exact this

/-! ## The free-map file -/

namespace Wf

variable {s : St} {e : Nat → Nat} (h : Wf s e)
include h

variable {p : Nat} {i : Inode}

/-- No handle denies writes to the free-map file or the root directory. -/
theorem writable (hi : s.inodes p = some i)
    (hx : i.sector = freeMapSector ∨ i.sector = rootDirSector) : i.denyWriteCnt = 0 := by
  rw [h.heap.denyCnt p i hi]
  by_contra hne
  obtain ⟨g, f, -, hf, hP⟩ := exists_of_count_pos (Nat.pos_of_ne_zero hne)
  rw [Bool.and_eq_true, beq_iff_eq] at hP
  obtain ⟨rfl, hd⟩ := hP
  obtain ⟨j, hj, hroot, hmap⟩ := h.heap.file g f hf
  rw [hi] at hj
  cases hj
  rcases hx with hx | hx
  · obtain ⟨g', f', k, hg', hf', hd', -⟩ := h.heap.map
    have := hmap hx
    rw [hg'] at this
    cases this
    rw [hf] at hf'
    cases hf'
    rw [hd] at hd'
    cases hd'
  · exact hroot hx

theorem onDevice (hi : s.inodes p = some i) : i.data.OnDevice s.devSize := by
  rw [h.layout.data p i hi]
  exact h.layout.onDevice _ (St.open_mem hi)

/-- The inode of the free-map file. -/
theorem mapInode : ∃ m, s.MapInode m ∧ m.sector = freeMapSector ∧ m.data = s.dinode freeMapSector := by
  obtain ⟨g, f, m, hg, hf, -, hm, h0⟩ := h.heap.map
  have hdata : m.data = s.dinode freeMapSector := by rw [h.layout.data _ _ hm, h0]
  refine ⟨m, ⟨⟨g, f, hg, hf, hm⟩, h.writable hm (.inl h0), ?_, h.onDevice hm⟩, h0, hdata⟩
  rw [hdata]
  exact h.layout.mapLength

/-- Dropping an inode other than that of the map leaves the map's file open. -/
theorem mapInode_setInode (hi : s.inodes p = some i) (hne : i.sector ≠ freeMapSector)
    (o : Option Inode) : ∃ m, (s.setInode p o).MapInode m ∧ m.data = s.dinode freeMapSector := by
  obtain ⟨m, hm, h0, hdata⟩ := h.mapInode
  obtain ⟨g, f, hg, hf, hfm⟩ := hm.file
  refine ⟨m, ⟨⟨g, f, hg, hf, ?_⟩, hm.writable, hm.length, hm.onDevice⟩, hdata⟩
  have hpne : f.inode ≠ p := by
    rintro rfl
    rw [hi] at hfm
    cases hfm
    exact hne h0
  rw [St.setInode_inodes, update_of_ne hpne, hfm]

end Wf

/-! ## `inode_close` -/

/-- The map without the sectors of `i`. -/
def freed (b : Nat → Bool) (i : Inode) : Nat → Bool :=
  bitmapSetMultiple (bitmapSetMultiple b i.sector 1 false) i.data.start i.data.sectors false

theorem freed_apply (h : ¬ (z = i.sector ∨ i.data.Data z)) :
    freed b i z = b z := by
  unfold freed
  rw [bitmapSetMultiple_apply, if_neg, bitmapSetMultiple_apply, if_neg]
  · exact fun hz => h (.inl (by omega))
  · exact fun hz => h (.inr hz)

theorem freed_own (h : z = i.sector ∨ i.data.Data z) :
    freed b i z = false := by
  unfold freed
  rw [bitmapSetMultiple_apply, bitmapSetMultiple_apply]
  split
  next => rfl
  next hz =>
    have hx : z = i.sector := h.resolve_right hz
    exact if_pos (by omega)

theorem freed_of_free (h : b z = false) : freed b i z = false := by
  by_cases hz : z = i.sector ∨ i.data.Data z
  · exact freed_own hz
  · rw [freed_apply hz, h]

/-- What dropping a reference to inode `i` at `p` does; `d` is the inode of
the free map. -/
inductive Closed (d : DiskInode) (p : Nat) (i : Inode) (s s' : St) : Prop
  | keep (hcnt : i.openCnt ≠ 1) (hs : s' = s.setInode p (some { i with openCnt := i.openCnt - 1 }))
  | free (hcnt : i.openCnt = 1) (hr : i.removed = false)
      (hs : s' = (s.setOpen (s.openInodes.erase p)).setInode p none)
  | release (hcnt : i.openCnt = 1) (hr : i.removed = true) (u : St) (hu : Saved d (freed s.freeMap i) s u)
      (hst : s.mem = [] → Stored u.disk d.start s.devSize u.freeMap)
      (hs : s' = (u.setOpen (s.openInodes.erase p)).setInode p none)

theorem Closed.setFile (h : Closed d p i s s') (g : Nat)
    (o : Option File) : Closed d p i (s.setFile g o) (s'.setFile g o) := by
  cases h with
  | keep hcnt hs => exact .keep hcnt (by rw [hs]; rfl)
  | free hcnt hr hs => exact .free hcnt hr (by rw [hs]; rfl)
  | release hcnt hr u hu hst hs =>
    refine .release hcnt hr (u.setFile g o) ⟨?_, hu.disk, hu.mem⟩ hst (by rw [hs]; rfl)
    exact congrArg (fun v : St => v.setFile g o) hu.rest

theorem ok_inodeFree (o : Option Inode) (hcnt : i.openCnt = 1)
    (hrem : i.removed = true → ∃ m, (s.setInode p o).MapInode m ∧ m.data = d ∧ i.sector < s.devSize ∧
      i.data.OnDevice s.devSize ∧ ¬ i.data.Data i.sector ∧
      ∀ z, z = i.sector ∨ i.data.Data z → s.freeMap z = true) :
    Ok (inodeFree p i) (s.setInode p o) fun _ s' => Closed d p i s s' := by
  unfold inodeFree
  rw [ok_bind, ok_fsModify]
  cases hr : i.removed with
  | false =>
    rw [if_neg (by decide), ok_fsModify]
    refine .free hcnt hr ?_
    simp only [St.setInode, St.setOpen, update_idem]
  | true =>
    obtain ⟨m, hm, rfl, hlt, hon, hapart, hused⟩ := hrem hr
    rw [if_pos rfl, ok_bind]
    have hm' : ((s.setInode p o).setOpen (s.openInodes.erase p)).MapInode m :=
      ⟨hm.file, hm.writable, hm.length, hm.onDevice⟩
    refine (ok_freeMapRelease hm' (x := i.sector) (n := 1) hlt fun y h1 h2 => hused y (.inl (by omega))).mono ?_
    rintro _ u ⟨hu, -⟩
    have hmu := hu.mapInode hm'
    have hufm : u.freeMap = bitmapSetMultiple s.freeMap i.sector 1 false := by rw [hu.rest]; rfl
    have hudev : u.devSize = s.devSize := by rw [hu.rest]; rfl
    rw [ok_bind]
    refine (ok_freeMapRelease hmu (x := i.data.start) (n := i.data.sectors) (by rw [hudev]; exact hon.le_dev)
      fun y h1 h2 => ?_).mono ?_
    · have hne : y ≠ i.sector := fun h => hapart (h ▸ ⟨h1, h2⟩)
      rw [hufm, bitmapSetMultiple_apply, if_neg (by omega)]
      exact hused y (.inr ⟨h1, h2⟩)
    rintro _ v ⟨hv, hst⟩
    rw [ok_fsModify]
    refine .release hcnt hr (((s.setFreeMap (freed s.freeMap i)).setDisk v.disk).setMem v.mem)
      ⟨rfl, fun x hx => ?_, fun hs => hv.mem (hu.mem hs)⟩ (fun hs => ?_) ?_
    · exact (hv.disk x hx).trans (hu.disk x hx)
    · have := hst (hu.mem hs)
      rw [hudev, hv.rest, hufm] at this
      exact this
    · rw [hv.rest, hu.rest]
      simp only [St.setInode, St.setOpen, St.setFreeMap, St.setDisk, St.setMem, update_idem]
      rfl

/-- An inode that is removed is about to give back sectors it owns. -/
theorem Wf.release_ok (h : Wf s e) (hi : s.inodes p = some i)
    (o : Option Inode) (hr : i.removed = true) :
    ∃ m, (s.setInode p o).MapInode m ∧ m.data = s.dinode freeMapSector ∧ i.sector < s.devSize ∧
      i.data.OnDevice s.devSize ∧ ¬ i.data.Data i.sector ∧
      ∀ z, z = i.sector ∨ i.data.Data z → s.freeMap z = true := by
  obtain ⟨m, hm, hd⟩ := h.mapInode_setInode hi (h.layout.removed p i hi hr).1 o
  refine ⟨m, hm, hd, h.layout.lt_dev _ (St.open_mem hi), h.onDevice hi, ?_, fun z hz => ?_⟩
  · rw [h.layout.data p i hi]
    exact h.layout.apart _ (St.open_mem hi)
  · rw [h.layout.data p i hi] at hz
    exact h.layout.used_of_mem (St.open_mem hi) hz

/-- The layout stays when open inodes are closed or change their counts. -/
theorem Layout.shrink (h : Layout s) (hdev : s'.devSize = s.devSize)
    (hino : ∀ q j, s'.inodes q = some j →
      ∃ i, s.inodes q = some i ∧ i.sector = j.sector ∧ i.data = j.data ∧ (j.removed = true → i.removed = true))
    (hdisk : ∀ x ∈ s.live, s'.disk x = s.disk x) (hroot : ∀ z, s.root.Data z → s'.disk z = s.disk z)
    (hused : ∀ x ∈ s.live, x = freeMapSector ∨ x = rootDirSector ∨ s.Named x ∨ s'.Open x →
      ∀ z ∈ s.extent x, s'.freeMap z = true) : Layout s' := by
  refine h.frame hdev (fun q j hj => ?_) hdisk hroot fun x hx => hused x ?_ hx
  · obtain ⟨i, hi, hsec, hdata, hr⟩ := hino q j hj
    rw [← hsec, ← hdata]
    exact ⟨St.open_mem hi, h.data q i hi, fun hj' => h.removed q i hi (hr hj')⟩
  · rcases hx with hx | hx | hx | ⟨q, j, hj, rfl⟩
    · exact .inl hx
    · exact .inr (.inl hx)
    · exact .inr (.inr (.inl hx))
    · obtain ⟨i, hi, hsec, -⟩ := hino q j hj
      rw [← hsec]
      exact St.open_mem hi

/-- Nothing of `Layout` is about files. -/
theorem Layout.setFile (h : Layout s) (g : Nat) (o : Option File) : Layout (s.setFile g o) :=
  h.shrink rfl (fun _ j hj => ⟨j, hj, rfl, rfl, id⟩) (fun _ _ => rfl) (fun _ _ => rfl)
    fun _ hx _ _ hz => h.used_of_mem hx hz

/-- An update of the inode at `p` that keeps its sector and data, or removes it. -/
theorem inodes_update {o : Option Inode} (hi : s.inodes p = some i)
    (ho : ∀ j, o = some j → i.sector = j.sector ∧ i.data = j.data ∧ (j.removed = true → i.removed = true))
    {q : Nat} {j : Inode} (hj : update s.inodes p o q = some j) :
    ∃ i, s.inodes q = some i ∧ i.sector = j.sector ∧ i.data = j.data ∧ (j.removed = true → i.removed = true) := by
  by_cases hq : q = p
  · subst hq
    rw [update_self] at hj
    exact ⟨i, hi, ho j hj⟩
  · rw [update_of_ne hq] at hj
    exact ⟨j, hj, rfl, rfl, id⟩

/-- What `inode_close` does keeps the file system well formed. -/
theorem Wf.closed (h : Wf s (hold e p)) (hi : s.inodes p = some i)
    (hc : Closed (s.dinode freeMapSector) p i s s') :
    Wf s' e ∧ Quiet s s' ∧ (i.removed = false → s'.freeMap = s.freeMap ∧ s'.disk = s.disk) ∧
      ∀ q j, s'.inodes q = some j → ∃ k, s.inodes q = some k ∧ k.sector = j.sector := by
  obtain ⟨hcnt, hpos⟩ := h.heap.openCnt p i hi
  rw [hold_self] at hcnt
  have hl := h.layout
  -- the inode that goes is not that of a file
  have hview : i.openCnt = 1 → ∀ g f, s.files g = some f → f.inode ≠ p := by
    rintro hone g f hf rfl
    have := count_pos (h.heap.lt_brk_of_file hf) hf (P := fun f' => f'.inode == f.inode) (beq_self_eq_true _)
    change 0 < s.refs f.inode at this
    omega
  cases hc with
  | keep hne hs =>
    subst hs
    have hino : ∀ q j, (s.setInode p (some { i with openCnt := i.openCnt - 1 })).inodes q = some j →
        ∃ k, s.inodes q = some k ∧ k.sector = j.sector ∧ k.data = j.data ∧
          (j.removed = true → k.removed = true) := fun q j hj => inodes_update hi (fun j hj => by
      cases hj
      exact ⟨rfl, rfl, id⟩) hj
    refine ⟨⟨h.heap.setInode hi rfl ⟨?_, ?_⟩ (h.heap.denyCnt p i hi) fun q hq => (hold_of_ne hq).symm,
      hl.shrink rfl hino (fun _ _ => rfl) (fun _ _ => rfl) fun _ hx _ _ hz => hl.used_of_mem hx hz⟩,
      ⟨⟨.of_disk_eq rfl rfl rfl rfl id, fun _ _ hg => hg.setInode hi rfl rfl id⟩, rfl,
        view_eq rfl fun g f hf => ?_⟩, fun _ => ⟨rfl, rfl⟩, fun q j hj => ?_⟩
    · change i.openCnt - 1 = _
      omega
    · change 0 < i.openCnt - 1
      omega
    · rw [St.setInode_inodes]
      by_cases hq : f.inode = p
      · rw [hq, update_self, hi]
        rfl
      · rw [update_of_ne hq]
    · obtain ⟨k, hk, hsec, -⟩ := hino q j hj
      exact ⟨k, hk, hsec⟩
  | free hone hr hs =>
    subst hs
    have hino : ∀ q j, ((s.setOpen (s.openInodes.erase p)).setInode p none).inodes q = some j →
        ∃ k, s.inodes q = some k ∧ k.sector = j.sector ∧ k.data = j.data ∧
          (j.removed = true → k.removed = true) := fun q j hj => inodes_update hi (fun j hj => by cases hj) hj
    refine ⟨⟨h.heap.free hi hone, hl.shrink rfl hino (fun _ _ => rfl) (fun _ _ => rfl)
      fun _ hx _ _ hz => hl.used_of_mem hx hz⟩,
      ⟨⟨.of_disk_eq rfl rfl rfl rfl id, fun x d hg => hg.mono (fun q j hj hjr => ⟨j, ?_, rfl, rfl, hjr⟩) rfl⟩, rfl,
        view_eq rfl fun g f hf => ?_⟩, fun _ => ⟨rfl, rfl⟩, fun q j hj => ?_⟩
    · have hq : q ≠ p := by
        rintro rfl
        rw [hi] at hj
        cases hj
        rw [hr] at hjr
        cases hjr
      rw [St.setInode_inodes, update_of_ne hq]
      exact hj
    · rw [St.setInode_inodes, update_of_ne (hview hone g f hf)]
      rfl
    · obtain ⟨k, hk, hsec, -⟩ := hino q j hj
      exact ⟨k, hk, hsec⟩
  | release hone hr u hu hst hs =>
    subst hs
    obtain ⟨h0, h1, hnamed⟩ := hl.removed p i hi hr
    have hufm : u.freeMap = freed s.freeMap i := by rw [hu.rest]; rfl
    have hino : (u.setOpen (s.openInodes.erase p)).inodes = s.inodes := by rw [hu.rest]; rfl
    have hfiles : u.files = s.files := by rw [hu.rest]; rfl
    have hcalm := Calm.of_saved hl hu fun hm _ => hst hm
    have hinodes : ∀ q j, ((u.setOpen (s.openInodes.erase p)).setInode p none).inodes q = some j →
        q ≠ p ∧ s.inodes q = some j := by
      intro q j hj
      rw [St.setInode_inodes, hino] at hj
      by_cases hq : q = p
      · rw [hq, update_self] at hj
        cases hj
      · rw [update_of_ne hq] at hj
        exact ⟨hq, hj⟩
    refine ⟨⟨?_, hl.shrink hcalm.devSize (fun q j hj => ⟨j, (hinodes q j hj).2, rfl, rfl, id⟩)
      (fun x hx => hu.disk x (hl.not_data s.map_mem hx))
      (fun z hz => hu.disk z (hl.data_disjoint s.root_mem s.map_mem (by decide) hz)) ?_⟩, ⟨⟨?_, ?_⟩, hfiles, ?_⟩,
      (fun hkept => by rw [hr] at hkept; cases hkept), fun q j hj => ⟨j, (hinodes q j hj).2, rfl⟩⟩
    · have := h.heap.free hi hone
      rw [hu.rest]
      exact this.congr (freed s.freeMap i) u.disk u.mem
    · -- the other live inodes own none of the sectors that are given back
      intro x hx hx' z hz
      have hne : x ≠ i.sector := by
        rintro rfl
        rcases hx' with hx' | hx' | hx' | ⟨q, j, hj, hjs⟩
        · exact h0 hx'
        · exact h1 hx'
        · exact hnamed hx'
        · obtain ⟨hq, hj⟩ := hinodes q j hj
          exact hq (h.heap.inj q p j i hj hi hjs)
      change u.freeMap z = true
      rw [hufm, freed_apply]
      · exact hl.used_of_mem hx hz
      · rw [hl.data p i hi]
        exact fun hz' => hne (hl.owned.eq_of_mem hx (St.open_mem hi) hz hz')
    · exact ⟨hcalm.devSize, hcalm.mapFile, hcalm.disk, hcalm.mem, hcalm.synced⟩
    · -- the sectors of this file are given back, another removed file is still open
      have hkeep : ∀ z, s.freeMap z = false → u.freeMap z = false := fun z hz => by
        rw [hufm]
        exact freed_of_free hz
      rintro x d (⟨q, j, hj, rfl, rfl, hjr⟩ | hfree)
      · by_cases hq : q = p
        · subst hq
          rw [hi] at hj
          cases hj
          refine .inr fun z hz => ?_
          change u.freeMap z = false
          rw [hufm]
          exact freed_own hz
        · refine .inl ⟨q, j, ?_, rfl, rfl, hjr⟩
          rw [St.setInode_inodes, hino, update_of_ne hq]
          exact hj
      · exact .inr fun z hz => hkeep z (hfree z hz)
    · refine view_eq hfiles fun g f hf => ?_
      rw [St.setInode_inodes, hino, update_of_ne (hview hone g f hf)]

theorem ok_inodeClose_closed (hi : s.inodes p = some i)
    (hrem : i.removed = true → ∃ m, (s.setInode p (some { i with openCnt := i.openCnt - 1 })).MapInode m ∧
      m.data = d ∧ i.sector < s.devSize ∧ i.data.OnDevice s.devSize ∧ ¬ i.data.Data i.sector ∧
      ∀ z, z = i.sector ∨ i.data.Data z → s.freeMap z = true) :
    Ok (inodeClose (some p)) s fun _ s' => Closed d p i s s' := by
  unfold inodeClose
  dsimp only
  rw [ok_bind, ok_inodeAt hi, ok_bind, ok_fsModify]
  split
  next hone => exact ok_inodeFree _ hone hrem
  next hne => exact (ok_pure _).mpr (.keep hne rfl)

/-- `inode_close` drops a reference. -/
theorem ok_inodeClose (h : Wf s (hold e p)) :
    Ok (inodeClose (some p)) s fun _ s' => Wf s' e ∧ Quiet s s' ∧
      (∀ i, s.inodes p = some i → i.removed = false → s'.freeMap = s.freeMap ∧ s'.disk = s.disk) ∧
      ∀ q j, s'.inodes q = some j → ∃ k, s.inodes q = some k ∧ k.sector = j.sector := by
  cases hi : s.inodes p with
  | none =>
    have := h.heap.extra p hi
    rw [hold_self] at this
    omega
  | some i =>
    refine (ok_inodeClose_closed hi (h.release_ok hi _)).mono fun _ s' hc => ?_
    obtain ⟨hw, hq, hkept, hino⟩ := h.closed hi hc
    refine ⟨hw, hq, fun j hj => ?_, hino⟩
    cases hj
    exact hkept

/-! ## `inode_open` -/

theorem findOpen_some (h : s.findOpen x = some p) : ∃ i, s.inodes p = some i ∧ i.sector = x := by
  have := List.find?_some h
  rw [Option.any_eq_true] at this
  obtain ⟨i, hi, hx⟩ := this
  exact ⟨i, hi, beq_iff_eq.mp hx⟩

theorem findOpen_none (hh : Heap s e) (h : s.findOpen x = none)
    (hi : s.inodes p = some i) : i.sector ≠ x := by
  intro hx
  have := List.find?_eq_none.mp h p ((hh.mem_open p).mpr ⟨i, hi⟩)
  rw [hi] at this
  exact this (beq_iff_eq.mpr hx)

/-- One more reference to an open inode. -/
theorem Wf.reopen (h : Wf s e) (hi : s.inodes p = some i) :
    Wf (s.setInode p (some { i with openCnt := i.openCnt + 1 })) (hold e p) ∧
      Quiet s (s.setInode p (some { i with openCnt := i.openCnt + 1 })) := by
  have hl := h.layout
  obtain ⟨hcnt, hpos⟩ := h.heap.openCnt p i hi
  refine ⟨⟨h.heap.setInode hi rfl ⟨?_, ?_⟩ (h.heap.denyCnt p i hi) fun q hq => hold_of_ne hq,
    hl.shrink rfl (fun q j hj => inodes_update hi (fun j hj => ?_) hj) (fun _ _ => rfl) (fun _ _ => rfl)
      fun _ hx _ _ hz => hl.used_of_mem hx hz⟩,
    ⟨⟨.of_disk_eq rfl rfl rfl rfl id, fun _ _ hg => hg.setInode hi rfl rfl id⟩, rfl,
      view_eq rfl fun g f hf => ?_⟩⟩
  · change i.openCnt + 1 = _
    rw [hold_self]
    omega
  · exact Nat.succ_pos _
  · cases hj
    exact ⟨rfl, rfl, id⟩
  · rw [St.setInode_inodes]
    by_cases hq : f.inode = p
    · rw [hq, update_self, hi]
      rfl
    · rw [update_of_ne hq]

/-- `inode_open` returns the one inode for the sector, or fails for want of memory. -/
theorem ok_inodeOpen (h : Wf s e) (hx : x ∈ s.live) :
    Ok (inodeOpen x) s fun r s' => Quiet s s' ∧ s'.disk = s.disk ∧ s'.freeMap = s.freeMap ∧
      (∀ q j, s.inodes q = some j → ∃ k, s'.inodes q = some k ∧ k.sector = j.sector) ∧
      match r with
      | none => s.mem ≠ [] ∧ Wf s' e
      | some p => Wf s' (hold e p) ∧ ∃ i, s'.inodes p = some i ∧ i.sector = x := by
  have hl := h.layout
  unfold inodeOpen
  rw [ok_bind, ok_fsGet]
  cases hfind : s.findOpen x with
  | some p =>
    obtain ⟨i, hi, hix⟩ := findOpen_some hfind
    dsimp only
    unfold inodeReopen
    rw [ok_bind, ok_bind, ok_inodeAt hi, ok_fsModify]
    obtain ⟨hw, hq⟩ := h.reopen hi
    refine (ok_pure _).mpr ⟨hq, rfl, rfl, fun q j hj => ?_, hw, _, update_self .., hix⟩
    rw [St.setInode_inodes]
    by_cases hqp : q = p
    · subst hqp
      rw [hi] at hj
      cases hj
      exact ⟨_, update_self .., rfl⟩
    · exact ⟨j, by rwa [update_of_ne hqp], rfl⟩
  | none =>
    dsimp only
    rw [ok_bind, ok_malloc]
    cases hm : s.mem.headD true with
    | false =>
      rw [if_neg (by decide), ok_pure]
      have hne : s.mem ≠ [] := by
        intro hnil
        rw [hnil] at hm
        cases hm
      refine ⟨⟨⟨.of_disk_eq rfl rfl rfl rfl fun hnil => absurd hnil hne, fun _ _ hg => hg.of_eq rfl rfl⟩, rfl, rfl⟩,
        rfl, rfl,
        fun q j hj => ⟨j, hj, rfl⟩, hne, h.heap.congr s.freeMap s.disk _, ?_⟩
      exact hl.shrink rfl (fun q j hj => ⟨j, hj, rfl, rfl, id⟩) (fun _ _ => rfl) (fun _ _ => rfl)
        fun _ hx _ _ hz => hl.used_of_mem hx hz
    | true =>
      rw [if_pos rfl, ok_bind, ok_newPtr, ok_bind, ok_blockRead (by exact hl.lt_dev x hx), ok_bind, ok_fsModify,
        ok_pure]
      have hnew := h.heap.newInode (i := ⟨x, 1, false, 0, s.dinode x⟩)
        (fun p j hj => findOpen_none h.heap hfind hj) rfl rfl
      have hnone := (h.heap.below s.brk (Nat.le_refl _)).1
      have hkeep : ∀ q j, s.inodes q = some j →
          update s.inodes s.brk (some ⟨x, 1, false, 0, s.dinode x⟩) q = some j := by
        intro q j hj
        have hqne : q ≠ s.brk := fun hq => by
          rw [hq, hnone] at hj
          cases hj
        rwa [update_of_ne hqne]
      refine ⟨⟨⟨.of_disk_eq rfl rfl rfl rfl fun hnil => ?_, fun _ _ hg => hg.mono (fun q j hj hr =>
        ⟨j, hkeep q j hj, rfl, rfl, hr⟩) rfl⟩, rfl, view_eq rfl fun g f hf => ?_⟩, rfl, rfl,
        fun q j hj => ⟨j, hkeep q j hj, rfl⟩, ⟨hnew.congr s.freeMap s.disk s.mem.tail, ?_⟩, _, update_self ..,
        rfl⟩
      · change s.mem.tail = []
        rw [hnil]
        rfl
      · change (update s.inodes s.brk _ f.inode).map _ = _
        rw [update_of_ne (h.heap.file_ne hnone hf)]
      · have hopen : ∀ q j, update s.inodes s.brk (some ⟨x, 1, false, 0, s.dinode x⟩) q = some j →
            (j = ⟨x, 1, false, 0, s.dinode x⟩) ∨ s.inodes q = some j := by
          intro q j hj
          by_cases hq : q = s.brk
          · rw [hq, update_self] at hj
            cases hj
            exact .inl rfl
          · rw [update_of_ne hq] at hj
            exact .inr hj
        refine hl.frame rfl (fun q j hj => ?_) (fun _ _ => rfl) (fun _ _ => rfl) fun y hy z hz => hl.used_of_mem ?_ hz
        · rcases hopen q j hj with rfl | hj
          · exact ⟨hx, rfl, fun hr => by cases hr⟩
          · exact ⟨St.open_mem hj, hl.data q j hj, hl.removed q j hj⟩
        · rcases hy with hy | hy | hy | ⟨q, j, hj, rfl⟩
          · exact .inl hy
          · exact .inr (.inl hy)
          · exact .inr (.inr (.inl hy))
          · rcases hopen q j hj with rfl | hj
            · exact hx
            · exact St.open_mem hj

/-! ## Files -/

/-- The outcomes of allocations do not matter. -/
theorem Wf.setMem (h : Wf s e) (m : List Bool) : Wf (s.setMem m) e :=
  ⟨h.heap.congr s.freeMap s.disk m, h.layout.shrink rfl (fun _ j hj => ⟨j, hj, rfl, rfl, id⟩) (fun _ _ => rfl)
    (fun _ _ => rfl) fun _ hx _ _ hz => h.layout.used_of_mem hx hz⟩

theorem Quiet.setMem (s : St) {m : List Bool} (hm : s.mem = [] → m = []) : Quiet s (s.setMem m) :=
  ⟨⟨.of_disk_eq rfl rfl rfl rfl hm, fun _ _ hg => hg.of_eq rfl rfl⟩, rfl, rfl⟩

theorem Quiet.tail (s : St) : Quiet s (s.setMem s.mem.tail) := Quiet.setMem s fun hm => by rw [hm]; rfl

theorem mem_ne_nil {m : List Bool} (h : m.headD true = false) : m ≠ [] := by
  rintro rfl
  cases h

/-- `file_open` on a reference to inode `p`. -/
theorem ok_fileOpen (h : Wf s (hold e p)) (hi : s.inodes p = some i)
    (hroot : i.sector ≠ rootDirSector) (hmap : i.sector ≠ freeMapSector) :
    Ok (fileOpen (some p)) s fun r s' => Wf s' e ∧ Tame s s' ∧
      match r with
      | none => s.mem ≠ [] ∧ s'.view = s.view ∧ s'.files = s.files
      | some g => s.view g = none ∧ s'.Handle g ∧ s'.view = update s.view g (some (i.sector, 0)) ∧
          s'.files = update s.files g (some ⟨p, 0, false⟩) := by
  unfold fileOpen
  rw [ok_bind, ok_malloc]
  have hmem := h.setMem s.mem.tail
  cases hm : s.mem.headD true with
  | false =>
    dsimp only
    rw [ok_bind]
    refine (ok_inodeClose hmem).mono fun _ s' ⟨hw, hq, _⟩ => ?_
    have hq' := (Quiet.tail s).trans hq h.layout
    exact (ok_pure _).mpr ⟨hw, hq'.toTame, mem_ne_nil hm, hq'.view, hq'.files⟩
  | true =>
    dsimp only
    rw [ok_bind, ok_newPtr, ok_bind, ok_fsModify, ok_pure]
    have hnone : s.files s.brk = none := (h.heap.below s.brk (Nat.le_refl _)).2
    have hnew := hmem.heap.newFile (e := e) hi hroot hmap
    refine ⟨⟨hnew, h.layout.shrink rfl (fun _ j hj => ⟨j, hj, rfl, rfl, id⟩) (fun _ _ => rfl) (fun _ _ => rfl)
      fun _ hx _ _ hz => h.layout.used_of_mem hx hz⟩, ⟨.of_disk_eq rfl rfl rfl rfl (Quiet.tail s).mem,
      fun _ _ hg => hg.of_eq rfl rfl⟩, ?_, ⟨?_, ?_⟩, ?_, rfl⟩
    · change St.view s s.brk = none
      simp only [St.view, hnone, Option.bind_none]
    · change (update s.files s.brk _ s.brk).isSome = true
      rw [update_self]
      rfl
    · obtain ⟨g, f, -, hg, hf, -⟩ := h.heap.map
      have hlt := h.heap.lt_brk_of_file hf
      change s.freeMapFile ≠ some s.brk
      rw [hg]
      rintro ⟨⟩
      exact absurd hlt (Nat.lt_irrefl _)
    · funext g
      change ((update s.files s.brk (some ⟨p, 0, false⟩) g).bind fun f =>
        (s.inodes f.inode).map fun i => (i.sector, f.pos)) = update s.view s.brk (some (i.sector, 0)) g
      by_cases hg : g = s.brk
      · rw [hg, update_self, update_self]
        simp only [Option.bind_some, hi, Option.map_some]
      · rw [update_of_ne hg, update_of_ne hg]
        rfl

/-- `file_open` without an inode. -/
theorem ok_fileOpen_none {Q : Option Nat → St → Prop} :
    Ok (fileOpen none) s Q ↔ Q none (s.setMem s.mem.tail) := by
  unfold fileOpen
  rw [ok_bind, ok_malloc]
  dsimp only
  unfold inodeClose
  rw [ok_bind, ok_pure, ok_pure]

end Pintos.Fs
