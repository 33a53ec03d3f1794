import Pintos.L3Proof.FsHandles

/-!
# Files

Specs of file.c: `file_reopen`, `file_close`, `file_deny_write`,
`file_allow_write`, and the transfers.
-/
namespace Pintos.Fs

open Pintos.Core Function

variable {s : St} {e : Nat → Nat} {g : Nat} {f : File}

/-- The inode of a handle. -/
theorem Wf.inode_of_handle (h : Wf s e) (hf : s.files g = some f) (hmap : s.freeMapFile ≠ some g) :
    ∃ i, s.inodes f.inode = some i ∧ i.sector ≠ rootDirSector ∧ i.sector ≠ freeMapSector := by
  obtain ⟨i, hi, hroot, hfm⟩ := h.heap.file g f hf
  exact ⟨i, hi, hroot, fun h0 => hmap (hfm h0)⟩

variable {i : Inode} {p x : Nat} {bs : List Byte}

theorem St.view_eq_some (hf : s.files g = some f) (hi : s.inodes f.inode = some i) :
    s.view g = some (i.sector, f.pos) := by
  simp only [St.view, hf, hi, Option.bind_some, Option.map_some]

/-- The view after a handle is changed or freed. -/
theorem view_setFile (s : St) (g : Nat) (o : Option File) :
    (s.setFile g o).view =
      update s.view g (o.bind fun f => (s.inodes f.inode).map fun i => (i.sector, f.pos)) := by
  funext k
  change (update s.files g o k).bind _ = _
  by_cases hk : k = g
  · rw [hk, update_self, update_self]
    rfl
  · rw [update_of_ne hk, update_of_ne hk]
    rfl

/-- Counts in inodes do not show in the view. -/
theorem view_setInode {j : Inode} (hi : s.inodes p = some i) (hsec : j.sector = i.sector) :
    (s.setInode p (some j)).view = s.view := by
  refine view_eq rfl fun g f _ => ?_
  rw [St.setInode_inodes]
  by_cases hq : f.inode = p
  · rw [hq, update_self, hi]
    exact congrArg some hsec
  · rw [update_of_ne hq]

/-! ## Positions and denied writes -/

/-- A handle changes its position or flag, its inode the count of handles that
deny writes. -/
theorem Wf.setFile (h : Wf s e) {k : File} {j : Inode} (hf : s.files g = some f)
    (hi : s.inodes f.inode = some i) (hin : k.inode = f.inode)
    (hj : j = { i with denyWriteCnt := j.denyWriteCnt })
    (hdeny : j.denyWriteCnt + f.denyWrite.toNat = i.denyWriteCnt + k.denyWrite.toNat)
    (hmap : s.freeMapFile ≠ some g) :
    Wf ((s.setFile g (some k)).setInode f.inode (some j)) e ∧
      ((s.setFile g (some k)).setInode f.inode (some j)).view =
        update s.view g (some (i.sector, k.pos)) := by
  have hsec : j.sector = i.sector := by rw [hj]
  refine ⟨⟨h.heap.setFile hf hi hin hsec (by rw [hj]) hdeny hmap, ?_⟩, ?_⟩
  · refine (h.layout.setFile g (some k)).shrink rfl (fun q k hk => inodes_update hi (fun k hk => ?_) hk)
      (fun _ _ => rfl) (fun _ _ => rfl) fun _ hx _ _ hz => (h.layout.setFile g (some k)).used_of_mem hx hz
    cases hk
    rw [hj]
    exact ⟨rfl, rfl, id⟩
  · rw [view_setInode (s := s.setFile g (some k)) hi hsec, view_setFile]
    simp only [Option.bind_some, hin, hi, Option.map_some]

theorem setInode_self (hi : s.inodes p = some i) : s.setInode p (some i) = s := by
  have : update s.inodes p (some i) = s.inodes := by
    rw [← hi]
    exact update_eq_self p s.inodes
  simp only [St.setInode, this]

/-- A handle changes its position only. -/
theorem Wf.setPos (h : Wf s e) (hf : s.files g = some f) (hi : s.inodes f.inode = some i)
    (hmap : s.freeMapFile ≠ some g) (pos : Nat) :
    Wf (s.setFile g (some { f with pos := pos })) e ∧
      (s.setFile g (some { f with pos := pos })).view = update s.view g (some (i.sector, pos)) := by
  have := h.setFile (k := { f with pos := pos }) (j := i) hf hi rfl rfl rfl hmap
  rwa [setInode_self (s := s.setFile g _) hi] at this

/-- Denied writes are counted, and each is by an opener. -/
theorem Wf.deny_le_open (h : Wf s e) (hi : s.inodes p = some i) :
    i.denyWriteCnt ≤ i.openCnt := by
  have h1 := h.heap.denyCnt p i hi
  have h2 := (h.heap.openCnt p i hi).1
  have h3 := s.denies_le_refs p
  omega

theorem Wf.deny_pos (h : Wf s e) (hf : s.files g = some f) (hd : f.denyWrite = true)
    (hi : s.inodes f.inode = some i) : 0 < i.denyWriteCnt := by
  rw [h.heap.denyCnt _ i hi]
  refine count_pos (h.heap.lt_brk_of_file hf) hf ?_
  rw [beq_self_eq_true, hd]
  rfl

theorem update_files_self (hf : s.files g = some f) : s.files = update s.files g (some f) := by
  rw [← hf, update_eq_self]

theorem update_view_self (hf : s.files g = some f) (hi : s.inodes f.inode = some i) :
    update s.view g (some (i.sector, f.pos)) = s.view := by
  rw [← St.view_eq_some hf hi, update_eq_self]

theorem ok_fileDenyWrite (h : Wf s e) (hf : s.files g = some f) (hmap : s.freeMapFile ≠ some g) :
    Ok (fileDenyWrite g) s fun _ s' => Wf s' e ∧ Tame s s' ∧ s'.view = s.view ∧ s'.disk = s.disk ∧
      s'.files = update s.files g (some { f with denyWrite := true }) := by
  obtain ⟨i, hi, -⟩ := h.inode_of_handle hf hmap
  unfold fileDenyWrite
  rw [ok_bind, ok_fileAt hf]
  cases hd : f.denyWrite with
  | true =>
    rw [if_pos rfl, ok_pure]
    refine ⟨h, .refl s, rfl, rfl, ?_⟩
    rw [← hd]
    exact update_files_self hf
  | false =>
    rw [if_neg (by decide), ok_bind, ok_fsModify]
    unfold inodeDenyWrite
    have hi1 : (s.setFile g (some { f with denyWrite := true })).inodes f.inode = some i := hi
    rw [ok_bind, ok_inodeAt hi1, ok_bind, ok_fsModify]
    obtain ⟨hw, hv⟩ := h.setFile (k := { f with denyWrite := true })
      (j := { i with denyWriteCnt := i.denyWriteCnt + 1 }) hf hi rfl rfl (by rw [hd]; rfl) hmap
    rw [if_pos (hw.deny_le_open (update_self ..)), ok_pure]
    exact ⟨hw, ⟨.of_disk_eq rfl rfl rfl rfl id, fun _ _ hg => (hg.of_eq rfl rfl).setInode hi1 rfl rfl id⟩,
      hv.trans (update_view_self (f := f) hf hi), rfl, rfl⟩

theorem ok_fileAllowWrite (h : Wf s e) (hf : s.files g = some f) (hmap : s.freeMapFile ≠ some g) :
    Ok (fileAllowWrite g) s fun _ s' => Wf s' e ∧ Tame s s' ∧ s'.view = s.view ∧ s'.disk = s.disk ∧
      s'.files = update s.files g (some { f with denyWrite := false }) := by
  obtain ⟨i, hi, -⟩ := h.inode_of_handle hf hmap
  unfold fileAllowWrite
  rw [ok_bind, ok_fileAt hf]
  cases hd : f.denyWrite with
  | false =>
    rw [if_neg (by decide), ok_pure]
    refine ⟨h, .refl s, rfl, rfl, ?_⟩
    rw [← hd]
    exact update_files_self hf
  | true =>
    have hpos := h.deny_pos hf hd hi
    rw [if_pos rfl, ok_bind, ok_fsModify]
    unfold inodeAllowWrite
    have hi1 : (s.setFile g (some { f with denyWrite := false })).inodes f.inode = some i := hi
    rw [ok_bind, ok_inodeAt hi1, if_pos ⟨hpos, h.deny_le_open hi⟩, ok_fsModify]
    obtain ⟨hw, hv⟩ := h.setFile (k := { f with denyWrite := false })
      (j := { i with denyWriteCnt := i.denyWriteCnt - 1 }) hf hi rfl rfl
      (by rw [hd]; change i.denyWriteCnt - 1 + 1 = i.denyWriteCnt + 0; omega) hmap
    exact ⟨hw, ⟨.of_disk_eq rfl rfl rfl rfl id, fun _ _ hg => (hg.of_eq rfl rfl).setInode hi1 rfl rfl id⟩,
      hv.trans (update_view_self (f := f) hf hi), rfl, rfl⟩

/-! ## Reopening and closing -/

theorem ok_fileReopen (h : Wf s e) (hf : s.files g = some f) (hmap : s.freeMapFile ≠ some g) :
    Ok (fileReopen g) s fun r s' => Wf s' e ∧ Tame s s' ∧
      match r with
      | none => s.mem ≠ [] ∧ s'.view = s.view ∧ s'.files = s.files
      | some g' => s.view g' = none ∧ s'.Handle g' ∧
          s'.view = update s.view g' ((s.view g).map fun v => (v.1, 0)) ∧
          s'.files = update s.files g' (some ⟨f.inode, 0, false⟩) := by
  obtain ⟨i, hi, hroot, h0⟩ := h.inode_of_handle hf hmap
  unfold fileReopen
  rw [ok_bind, ok_fileAt hf]
  unfold inodeReopen
  rw [ok_bind, ok_bind, ok_inodeAt hi, ok_fsModify]
  obtain ⟨hw, hq⟩ := h.reopen hi
  refine (ok_fileOpen (i := { i with openCnt := i.openCnt + 1 }) hw (update_self ..) hroot h0).mono ?_
  rintro r s' ⟨hw', hc, hr⟩
  refine ⟨hw', hq.toTame.trans hc h.layout, ?_⟩
  cases r with
  | none => exact ⟨hr.1, hr.2.1.trans hq.view, hr.2.2⟩
  | some g' =>
    obtain ⟨h1, h2, h3, h4⟩ := hr
    rw [hq.view] at h1 h3
    refine ⟨h1, h2, ?_, h4⟩
    rw [St.view_eq_some hf hi]
    exact h3

theorem ok_fileClose (h : Wf s e) (hf : s.files g = some f) (hmap : s.freeMapFile ≠ some g) :
    Ok (fileClose g) s fun _ s' => Wf s' e ∧ Tame s s' ∧ s'.view = update s.view g none ∧
      s'.files = update s.files g none := by
  unfold fileClose
  rw [ok_bind, ok_fileAt hf, ok_bind]
  refine (ok_fileAllowWrite h hf hmap).mono ?_
  rintro _ u ⟨hu, hcu, hvu, -, hfu⟩
  -- the file counts no more, but it is freed only after its inode has been closed
  have hfile : u.files g = some { f with denyWrite := false } := by rw [hfu, update_self]
  have hmapu : u.freeMapFile ≠ some g := by rw [hcu.mapFile]; exact hmap
  obtain ⟨i, hi, -⟩ := hu.inode_of_handle hfile hmapu
  have hclosed : Wf (u.setFile g none) (hold e f.inode) :=
    ⟨hu.heap.closeFile (f := { f with denyWrite := false }) hfile rfl hmapu, hu.layout.setFile g none⟩
  rw [ok_bind]
  refine (ok_inodeClose_closed hi (hu.release_ok hi _)).mono fun _ v hc => ?_
  rw [ok_fsModify]
  obtain ⟨hw, hq, -⟩ := hclosed.closed hi (hc.setFile g none)
  refine ⟨hw, hcu.trans ⟨⟨hq.devSize, hq.mapFile, hq.disk, hq.mem, hq.synced⟩, fun x d hg =>
    hq.gone x d (hg.of_eq rfl rfl)⟩ h.layout, ?_, ?_⟩
  · rw [hq.view, view_setFile, hvu]
    rfl
  · rw [hq.files]
    change update u.files g none = _
    rw [hfu, update_idem]

/-! ## Transfers -/

/-- The bytes of the file whose inode is in sector `x`. -/
def St.content (s : St) (x : Nat) : List Byte :=
  readBytes s.disk (s.dinode x).start 0 (s.dinode x).length

/-- A file keeps its bytes when the sectors it owns are not written. -/
theorem content_eq {s' : St} (hon : (s.dinode x).OnDevice s.devSize)
    (hdisk : ∀ z ∈ s.extent x, s'.disk z = s.disk z) :
    s'.dinode x = s.dinode x ∧ s'.content x = s.content x := by
  have hdin : s'.dinode x = s.dinode x := by simp only [St.dinode, hdisk x (.inl rfl)]
  refine ⟨hdin, ?_⟩
  unfold St.content
  rw [hdin]
  refine readBytes_congr fun j hj => ?_
  rw [Nat.zero_add]
  exact congrFun (hdisk _ (.inr (hon.data_of_lt hj))) _

/-- `Calm` leaves all files alone but that of the map. -/
theorem Calm.content_eq {s' : St} (h : Calm s s') (hl : Layout s) (hx : x ∈ s.live)
    (hne : x ≠ freeMapSector) : s'.dinode x = s.dinode x ∧ s'.content x = s.content x := by
  refine Fs.content_eq (hl.onDevice x hx) fun z hz => h.disk z fun hd => ?_
  rcases hz with rfl | hz
  · exact hl.not_data s.map_mem hx hd
  · exact hl.data_disjoint hx s.map_mem hne hz hd

/-- The data of a live inode other than the directory changes. -/
theorem Wf.setDisk (h : Wf s e) (hx : x ∈ s.live) (hroot : x ≠ rootDirSector) {disk : Nat → Block}
    (hout : ∀ z, ¬ (s.dinode x).Data z → disk z = s.disk z) (m : List Bool) :
    Wf ((s.setDisk disk).setMem m) e :=
  have hl := h.layout
  ⟨h.heap.congr s.freeMap disk m,
    hl.shrink rfl (fun _ j hj => ⟨j, hj, rfl, rfl, id⟩) (fun y hy => hout y (hl.not_data hx hy))
      (fun z hz => hout z fun hz' => hl.data_disjoint hx s.root_mem hroot hz' hz)
      fun _ hx _ _ hz => hl.used_of_mem hx hz⟩

theorem Layout.writeBytes_of_not_data (hl : Layout s) (hx : x ∈ s.live) {ofs : Nat}
    (hle : bs = [] ∨ ofs + bs.length ≤ (s.dinode x).length) {z : Nat} (hz : ¬ (s.dinode x).Data z) :
    writeBytes s.disk (s.dinode x).start ofs bs z = s.disk z := by
  rcases hle with rfl | hle
  · rw [writeBytes_nil]
  · exact (hl.onDevice x hx).writeBytes_of_not_data hle hz

theorem take_le {n ofs len k : Nat} {m m' : List Bool} (h : Upto ofs (min bs.length (len - n)) m k m') :
    bs.take k = [] ∨ n + (bs.take k).length ≤ len := by
  have := h.le
  rw [List.length_take]
  by_cases hk : k = 0
  · exact .inl (by rw [hk, List.take_zero])
  · exact .inr (by omega)

/-- What a write of `k` bytes through a handle on inode `i` leaves. -/
structure Wrote (s : St) (i : Inode) (bs : List Byte) (ofs k : Nat) (m' : List Bool) : Prop where
  upto : i.denyWriteCnt = 0 → Upto ofs (min bs.length (i.data.length - ofs)) s.mem k m'
  denied : i.denyWriteCnt ≠ 0 → k = 0 ∧ m' = s.mem

theorem ok_inodeWriteAt_handle (h : Wf s e) (hi : s.inodes p = some i)
    (hroot : i.sector ≠ rootDirSector) {ofs : Int} (hofs : bs ≠ [] → 0 ≤ ofs) :
    Ok (inodeWriteAt p bs ofs) s fun k s' => ∃ disk m',
      s' = (s.setDisk disk).setMem m' ∧
        disk = writeBytes s.disk (s.dinode i.sector).start ofs.toNat (bs.take k) ∧
        Wrote s i bs ofs.toNat k m' ∧ Wf s' e ∧ ∀ z, ¬ (s.dinode i.sector).Data z → disk z = s.disk z := by
  have hdata := h.layout.data p i hi
  by_cases hd : i.denyWriteCnt = 0
  · refine (ok_inodeWriteAt hi hd (h.onDevice hi).fits hofs).mono ?_
    rintro k s' ⟨m', hs', hu⟩
    have hle := take_le hu
    rw [hdata] at hle hs'
    have hout := fun z => h.layout.writeBytes_of_not_data (St.open_mem hi) hle (z := z)
    refine ⟨_, m', hs', rfl, ⟨fun _ => hu, fun hne => absurd hd hne⟩, ?_, hout⟩
    rw [hs']
    exact h.setDisk (St.open_mem hi) hroot hout m'
  · rw [ok_inodeWriteAt_denied hi hd]
    refine ⟨s.disk, s.mem, rfl, ?_, ⟨fun h0 => absurd h0 hd, fun _ => ⟨rfl, rfl⟩⟩, h, fun _ _ => rfl⟩
    rw [List.take_zero, writeBytes_nil]

theorem ok_fileWriteAt (hf : s.files g = some f) {ofs : Int} {Q : Nat → St → Prop} :
    Ok (fileWriteAt g bs ofs) s Q ↔ Ok (inodeWriteAt f.inode bs ofs) s Q := by
  unfold fileWriteAt
  rw [ok_bind, ok_fileAt hf]

/-- `file_write`. -/
theorem ok_fileWrite (h : Wf s e) (hf : s.files g = some f) (hmap : s.freeMapFile ≠ some g)
    (hi : s.inodes f.inode = some i) (hroot : i.sector ≠ rootDirSector) (bs : List Byte) :
    Ok (fileWrite g bs) s fun k s' => ∃ disk m',
      s' = ((s.setDisk disk).setMem m').setFile g (some { f with pos := f.pos + k }) ∧
        disk = writeBytes s.disk (s.dinode i.sector).start f.pos (bs.take k) ∧
        Wrote s i bs f.pos k m' ∧ Wf s' e ∧ s'.view = update s.view g (some (i.sector, f.pos + k)) ∧
        ∀ z, ¬ (s.dinode i.sector).Data z → disk z = s.disk z := by
  unfold fileWrite
  rw [ok_bind, ok_fileAt hf, ok_bind]
  refine (ok_inodeWriteAt_handle h hi hroot fun _ => Int.natCast_nonneg f.pos).mono ?_
  rintro k s' ⟨disk, m', rfl, hdisk, hwr, hw, hd⟩
  rw [Int.toNat_natCast] at hdisk hwr
  rw [ok_bind, ok_fsModify, ok_pure]
  obtain ⟨hw', hv⟩ := hw.setPos hf hi hmap (f.pos + k)
  exact ⟨disk, m', rfl, hdisk, hwr, hw', hv, hd⟩

/-- `file_read_at`. -/
theorem ok_fileReadAt (h : Wf s e) (hf : s.files g = some f) (hi : s.inodes f.inode = some i)
    (size ofs : Int) (hofs : 0 < size → 0 ≤ ofs) :
    Ok (fileReadAt g size ofs) s fun bs s' => ∃ k m',
      bs = readBytes s.disk i.data.start ofs.toNat k ∧ s' = s.setMem m' ∧
        Upto ofs.toNat (min size.toNat (i.data.length - ofs.toNat)) s.mem k m' := by
  unfold fileReadAt
  rw [ok_bind, ok_fileAt hf]
  exact ok_inodeReadAt hi (h.onDevice hi).fits hofs

/-- `file_read`. -/
theorem ok_fileRead (h : Wf s e) (hf : s.files g = some f) (hmap : s.freeMapFile ≠ some g)
    (hi : s.inodes f.inode = some i) (size : Int) :
    Ok (fileRead g size) s fun bs s' => ∃ k m',
      bs = readBytes s.disk i.data.start f.pos k ∧
        s' = (s.setMem m').setFile g (some { f with pos := f.pos + k }) ∧
        Upto f.pos (min size.toNat (i.data.length - f.pos)) s.mem k m' ∧ Wf s' e ∧
        s'.view = update s.view g (some (i.sector, f.pos + k)) := by
  unfold fileRead
  rw [ok_bind, ok_fileAt hf, ok_bind]
  refine (ok_inodeReadAt hi (h.onDevice hi).fits fun _ => Int.natCast_nonneg f.pos).mono ?_
  rintro bs s' ⟨k, m', rfl, rfl, hu⟩
  rw [ok_bind, ok_fsModify, ok_pure]
  rw [Int.toNat_natCast] at *
  rw [length_readBytes]
  obtain ⟨hw', hv⟩ := (h.setMem m').setPos hf hi hmap (f.pos + k)
  exact ⟨k, m', rfl, rfl, hu, hw', hv⟩

/-- `file_seek`. -/
theorem ok_fileSeek (h : Wf s e) (hf : s.files g = some f) (hmap : s.freeMapFile ≠ some g)
    (hi : s.inodes f.inode = some i) {pos : Int} (hpos : 0 ≤ pos) :
    Ok (fileSeek g pos) s fun _ s' => s' = s.setFile g (some { f with pos := pos.toNat }) ∧ Wf s' e ∧
      s'.view = update s.view g (some (i.sector, pos.toNat)) := by
  unfold fileSeek
  rw [ok_bind, ok_fileAt hf, if_neg (by omega), ok_fsModify]
  obtain ⟨hw, hv⟩ := h.setPos hf hi hmap pos.toNat
  exact ⟨rfl, hw, hv⟩

end Pintos.Fs
