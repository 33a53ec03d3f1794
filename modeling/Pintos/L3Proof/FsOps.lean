import Pintos.L3Proof.FsCreate

/-!
# `filesys_create`, `filesys_open` and `filesys_remove`

Each call opens the root directory, works in it and closes it again.
-/
namespace Pintos.Fs

open Pintos.Core Function

variable {s : St} {e : Nat → Nat}

/-! ## Opening and closing the directory -/

variable {p n x : Nat} {r : Inode} {name : Name} {ok : Bool}

theorem Wf.root_kept (h : Wf s e) (hr : s.RootAt p r) : r.removed = false := by
  cases hrem : r.removed with
  | false => rfl
  | true => exact absurd hr.sector (h.layout.removed p r hr.inode hrem).2.1

theorem ok_dirClose (h : Wf s (hold e p)) (hr : s.RootAt p r) :
    Ok (dirClose (some p)) s fun _ s' => Wf s' e ∧ Quiet s s' ∧ s'.freeMap = s.freeMap ∧ s'.disk = s.disk ∧
      ∀ q j, s'.inodes q = some j → ∃ k, s.inodes q = some k ∧ k.sector = j.sector := by
  unfold dirClose
  refine (ok_inodeClose h).mono fun _ s' ⟨hw, hq, hkept, hino⟩ => ?_
  obtain ⟨h1, h2⟩ := hkept r hr.inode (h.root_kept hr)
  exact ⟨hw, hq, h1, h2, hino⟩

theorem ok_dirOpenRoot (h : Wf s e) :
    Ok dirOpenRoot s fun dir s' => Quiet s s' ∧ s'.disk = s.disk ∧ s'.freeMap = s.freeMap ∧
      match dir with
      | none => s.mem ≠ [] ∧ Wf s' e
      | some p => Wf s' (hold e p) ∧ ∃ r, s'.RootAt p r := by
  unfold dirOpenRoot
  rw [ok_bind]
  refine (ok_inodeOpen h s.root_mem).mono ?_
  rintro found u ⟨hq, hdisk, hmap, -, hfound⟩
  have hqt := hq.trans (Quiet.tail u) h.layout
  unfold dirOpen
  rw [ok_bind, ok_malloc]
  cases found with
  | none =>
    dsimp only
    unfold inodeClose
    rw [ok_bind, ok_pure, ok_pure]
    exact ⟨hqt, hdisk, hmap, hfound.1, hfound.2.setMem _⟩
  | some p =>
    obtain ⟨hw, r, hr, hsec⟩ := hfound
    cases hm : u.mem.headD true with
    | true => exact (ok_pure _).mpr ⟨hqt, hdisk, hmap, hw.setMem _, r, hr, hsec⟩
    | false =>
      dsimp only
      rw [ok_bind]
      have hwt := hw.setMem u.mem.tail
      refine (ok_inodeClose hwt).mono fun _ v ⟨hv, hqv, hkept, _⟩ => ?_
      obtain ⟨h1, h2⟩ := hkept r hr (hwt.root_kept ⟨hr, hsec⟩)
      exact (ok_pure _).mpr ⟨hqt.trans hqv h.layout, h2.trans hdisk, h1.trans hmap,
        fun hnil => mem_ne_nil hm (hq.mem hnil), hv⟩

/-! ## `filesys_create` -/

/-- There is no sector for the inode or no run of sectors for the data. -/
def St.NoRoom (s : St) (n : Nat) : Prop :=
  s.scanInode = none ∨ ∃ x, s.scanInode = some x ∧ s.scanData x n = none

/-- What `filesys_create` leaves, and what it returns. -/
inductive Created (s : St) (name : Name) (n : Nat) (s' : St) : Bool → Prop
  | unchanged (hmap : s'.freeMap = s.freeMap) (hroot : ∀ z ∈ s.extent rootDirSector, s'.disk z = s.disk z)
      (hno : s.mem = [] → s.NoRoom n) : Created s name n s' false
  | leaked (x st : Nat) (hscan : s.scanInode = some x) (hdata : s.scanData x n = some st)
      (hmap : s'.freeMap = bitmapSetMultiple s.freeMap st (bytesToSectors n) true)
      (hroot : ∀ z ∈ s.extent rootDirSector, s'.disk z = s.disk z) (hno : s.mem = [] → ¬ s.CanName name) :
      Created s name n s' false
  | made (x st j : Nat) (hscan : s.scanInode = some x) (hdata : s.scanData x n = some st) (hj : j < dirEntries)
      (hslot : ∀ k < dirEntries, s'.slot k = if k = j then ⟨x, name.chars, true⟩ else s.slot k)
      (hdin : s'.dinode x = ⟨st, n⟩) (hcontent : s'.content x = List.replicate n 0) (hvalid : name.Valid)
      (hcan : s.mem = [] → (s.slot j).inUse = false ∧ ∀ k < dirEntries, ¬ s.Has name k)
      (hmap : s'.freeMap = bitmapSetMultiple (bitmapSetMultiple s.freeMap x 1 true) st (bytesToSectors n) true) :
      Created s name n s' true

/-- The outcome of the steps seen from the state before the directory was opened. -/
theorem Outcome.of_eq {u s' : St} (h : Outcome u name n s' ok x)
    (hdisk : u.disk = s.disk) (hmap : u.freeMap = s.freeMap) (hdev : u.devSize = s.devSize)
    (hmem : s.mem = [] → u.mem = []) : Outcome s name n s' ok x := by
  have hroot : u.root = s.root := by simp only [St.root, St.dinode, hdisk]
  have hslot : u.slot = s.slot := by funext k; simp only [St.slot, hroot, hdisk]
  have hext : u.extent rootDirSector = s.extent rootDirSector := by simp only [St.extent, St.dinode, hdisk]
  have hscan : u.scanInode = s.scanInode := by simp only [St.scanInode, hmap, hdev]
  have hdata : ∀ x n, u.scanData x n = s.scanData x n := fun x n => by simp only [St.scanData, hmap, hdev]
  have hhas : u.Has = s.Has := by funext name k; simp only [St.Has, hslot]
  have hcan : u.CanName = s.CanName := by funext name; simp only [St.CanName, hslot, hhas]
  cases h with
  | noSector h1 h2 h3 =>
    rw [hext, hdisk] at h2
    exact .noSector (h1.trans hmap) h2 fun hm => hscan ▸ h3 (hmem hm)
  | noData x h1 h2 h3 h4 h5 =>
    rw [hext, hdisk] at h4
    exact .noData x (hscan ▸ h1) (hmap ▸ h2) h3 h4 fun hm => hdata _ _ ▸ h5 (hmem hm)
  | noEntry x st h1 h2 h3 h4 h5 h6 =>
    rw [hext, hdisk] at h5
    exact .noEntry x st (hscan ▸ h1) (hdata _ _ ▸ h2) (hmap ▸ h3) h4 h5 fun hm => hcan ▸ h6 (hmem hm)
  | made x st j h1 h2 h3 h4 h5 h6 h7 h8 h9 =>
    rw [hslot] at h5 h9
    rw [hhas] at h9
    exact .made x st j (hscan ▸ h1) (hdata _ _ ▸ h2) h3 (hmap ▸ h4) h5 h6 h7 h8 fun hm => h9 (hmem hm)

/-- Giving back the sector of the inode after the data has been marked as well. -/
theorem bitmapSetMultiple_undo_inner {b : Nat → Bool} {st cnt : Nat} (hx : b x = false)
    (hr : ∀ y, st ≤ y → y < st + cnt → bitmapSetMultiple b x 1 true y = false) :
    bitmapSetMultiple (bitmapSetMultiple (bitmapSetMultiple b x 1 true) st cnt true) x 1 false =
      bitmapSetMultiple b st cnt true := by
  have hxr : ¬ (st ≤ x ∧ x < st + cnt) := fun h => by
    have := hr x h.1 h.2
    rw [bitmapSetMultiple_apply, if_pos (by omega)] at this
    cases this
  funext y
  simp only [bitmapSetMultiple_apply]
  by_cases hy : y = x
  · rw [hy, if_pos (by omega), if_neg hxr, hx]
  · rw [if_neg (by omega), if_neg (c := x ≤ y ∧ y < x + 1) (by omega)]

/-- A reserved sector is given back. -/
theorem ok_releaseReserved (h : Wf s e) (hx : Reserved s x) :
    Ok (freeMapRelease x 1) s fun _ s' => Wf s' e ∧ Calm s s' ∧ s'.inodes = s.inodes ∧ s'.files = s.files ∧
      s'.freeMap = bitmapSetMultiple s.freeMap x 1 false := by
  obtain ⟨mi, hmi, -, hmd⟩ := h.mapInode
  refine (ok_freeMapRelease hmi (x := x) (n := 1) hx.lt_dev fun y h1 h2 => ?_).mono ?_
  · obtain rfl : y = x := by omega
    exact hx.used
  rintro _ s' ⟨hsaved, hst⟩
  rw [hmd] at hsaved hst
  refine ⟨h.saved hsaved fun y hy z hz => ?_, .of_saved h.layout hsaved fun hm _ => hst hm, by rw [hsaved.rest]; rfl,
    by rw [hsaved.rest]; rfl, by rw [hsaved.rest]; rfl⟩
  rw [bitmapSetMultiple_apply, if_neg]
  · exact h.layout.used_of_mem hy hz
  · intro hzx
    obtain rfl : z = x := by omega
    exact hx.free y hy hz

theorem Created.of_eq {v s' : St} (h : Created s name n v ok)
    (hmap : s'.freeMap = v.freeMap) (hdisk : s'.disk = v.disk) : Created s name n s' ok := by
  have hroot : s'.root = v.root := by simp only [St.root, St.dinode, hdisk]
  have hslot : s'.slot = v.slot := by funext k; simp only [St.slot, hroot, hdisk]
  have hdin : s'.dinode = v.dinode := by funext x; simp only [St.dinode, hdisk]
  have hcontent : s'.content = v.content := by funext x; simp only [St.content, hdin, hdisk]
  cases h with
  | unchanged h1 h2 h3 => exact .unchanged (hmap.trans h1) (by rw [hdisk]; exact h2) h3
  | leaked x st h1 h2 h3 h4 h5 => exact .leaked x st h1 h2 (hmap.trans h3) (by rw [hdisk]; exact h4) h5
  | made x st j h1 h2 h3 h4 h5 h6 h7 h8 h9 =>
    exact .made x st j h1 h2 h3 (by rw [hslot]; exact h4) (by rw [hdin]; exact h5) (by rw [hcontent]; exact h6) h7 h8
      (hmap.trans h9)

/-- After the steps: an inode sector that is not used is given back. -/
theorem ok_undoCreate {w : St} (hw : Wf w e)
    (htouch : Touch s.Writable s w) (hdin : w.dinode freeMapSector = s.dinode freeMapSector)
    (hwl : ∀ z ∈ s.extent rootDirSector, ¬ (s.dinode freeMapSector).Data z) (hout : Outcome s name n w ok x) :
    Ok (undoCreate ok x) w fun _ s' => Wf s' e ∧ Touch s.Writable s s' ∧ s'.inodes = w.inodes ∧
      s'.files = w.files ∧ Created s name n s' ok := by
  unfold undoCreate
  -- the sector is not that of the map, which is owned
  have hne : ∀ x, Reserved w x → x ≠ 0 := by
    rintro x hx rfl
    exact hx.free freeMapSector w.map_mem (.inl rfl)
  have hcalm : ∀ v, Calm w v → Touch s.Writable s v ∧
      ∀ z ∈ s.extent rootDirSector, w.disk z = s.disk z → v.disk z = s.disk z := fun v hc => by
    refine ⟨htouch.trans (hc.touch fun z hz => .inl (hdin ▸ hz)), fun z hz h => ?_⟩
    rw [hc.disk z (by rw [hdin]; exact hwl z hz), h]
  cases hout with
  | noSector h1 h2 h3 =>
    rw [if_neg (by simp), ok_pure]
    exact ⟨hw, htouch, rfl, rfl, .unchanged h1 h2 fun hm => .inl (h3 hm)⟩
  | noData x h1 h2 h3 h4 h5 =>
    rw [if_pos ⟨rfl, hne x h3⟩]
    refine (ok_releaseReserved hw h3).mono ?_
    rintro _ v ⟨hv, hc, hino, hfiles, hmap⟩
    refine ⟨hv, (hcalm v hc).1, hino, hfiles, .unchanged ?_ (fun z hz => (hcalm v hc).2 z hz (h4 z hz))
      fun hm => .inr ⟨x, h1, h5 hm⟩⟩
    rw [hmap, h2]
    exact bitmapSetMultiple_undo (bitmapScan_some h1).2
  | noEntry x st h1 h2 h3 h4 h5 h6 =>
    rw [if_pos ⟨rfl, hne x h4⟩]
    refine (ok_releaseReserved hw h4).mono ?_
    rintro _ v ⟨hv, hc, hino, hfiles, hmap⟩
    refine ⟨hv, (hcalm v hc).1, hino, hfiles, .leaked x st h1 h2 ?_ (fun z hz => (hcalm v hc).2 z hz (h5 z hz)) h6⟩
    rw [hmap, h3]
    exact bitmapSetMultiple_undo_inner ((bitmapScan_some h1).2 x (Nat.le_refl x) (by omega)) (bitmapScan_some h2).2
  | made x st j h1 h2 h3 h4 h5 h6 h7 h8 h9 =>
    rw [if_neg (by simp), ok_pure]
    exact ⟨hw, htouch, rfl, rfl, .made x st j h1 h2 h3 h5 h6 h7 h8 h9 h4⟩

/-- `filesys_create` for a size that is not negative. -/
theorem ok_filesysCreate (h : Wf s e) (name : Name) (n : Nat) (buf : List Byte) :
    Ok (filesysCreate name n buf) s fun ok s' => Wf s' e ∧ Touch s.Writable s s' ∧ s'.files = s.files ∧
      s'.view = s.view ∧ Created s name n s' ok := by
  have hl := h.layout
  unfold filesysCreate
  rw [ok_bind]
  refine (ok_dirOpenRoot h).mono ?_
  rintro dir u ⟨hq, hdisk, hmap, hdir⟩
  have hwrite : u.Writable = s.Writable := by
    funext z
    simp only [St.Writable, St.root, St.dinode, hdisk, hmap]
  cases dir with
  | none =>
    unfold createSteps
    dsimp only
    rw [ok_bind, ok_pure]
    dsimp only
    rw [undoCreate, if_neg (by simp), ok_bind, ok_pure, dirClose, inodeClose, ok_bind, ok_pure, ok_pure]
    exact ⟨hdir.2, hq.toCalm.touch fun z hz => .inl hz, hq.files, hq.view,
      .unchanged hmap (fun z _ => by rw [hdisk]) fun hm => absurd hm hdir.1⟩
  | some p =>
    obtain ⟨hu, r, hr⟩ := hdir
    rw [ok_bind]
    refine (ok_createSteps hu hr name n buf).mono ?_
    rintro ⟨ok, x⟩ w ⟨hw, htw, hino, hfiles, hout⟩
    rw [hwrite] at htw
    have htouch : Touch s.Writable s w := (hq.toCalm.touch fun z hz => .inl hz).trans htw
    have hdin : w.dinode freeMapSector = s.dinode freeMapSector := by
      have hnw : ¬ s.Writable freeMapSector := by
        rintro (h1 | h1 | h1)
        · exact hl.apart _ s.map_mem h1
        · exact hl.not_data s.root_mem s.map_mem h1
        · exact hl.not_mem_extent h1 s.map_mem (.inl rfl)
      simp only [St.dinode, htouch.disk _ hnw]
    dsimp only
    rw [ok_bind]
    refine (ok_undoCreate hw htouch hdin hl.root_not_map (hout.of_eq hdisk hmap hq.devSize hq.mem)).mono ?_
    rintro _ v ⟨hv, htv, hino', hfiles', hcreated⟩
    have hrv : v.RootAt p r := ⟨by rw [hino', hino]; exact hr.inode, hr.sector⟩
    have hvino : v.inodes = u.inodes := hino'.trans hino
    have hvfiles : v.files = u.files := hfiles'.trans hfiles
    rw [ok_bind]
    refine (ok_dirClose hv hrv).mono ?_
    rintro _ s' ⟨hs', hqs, hmap', hdisk', -⟩
    refine (ok_pure _).mpr ⟨hs', htv.calm hqs.toCalm hdisk', ?_, ?_, hcreated.of_eq hmap' hdisk'⟩
    · exact hqs.files.trans (hvfiles.trans hq.files)
    · have : v.view = u.view := view_eq hvfiles fun g f _ => by rw [hvino]
      exact hqs.view.trans (this.trans hq.view)

/-! ## `filesys_open` -/

theorem hold_comm (e : Nat → Nat) (p q : Nat) : hold (hold e p) q = hold (hold e q) p := by
  funext k
  by_cases hp : k = p <;> by_cases hq : k = q
  · rw [← hp, ← hq]
  · rw [hold_of_ne hq, hp, hold_self, hold_self, hold_of_ne (hp ▸ hq)]
  · rw [hq, hold_self, hold_of_ne (hq ▸ hp), hold_of_ne (hq ▸ hp), hold_self]
  · rw [hold_of_ne hq, hold_of_ne hp, hold_of_ne hp, hold_of_ne hq]

/-- An inode on which a reference is held is there. -/
theorem Wf.inode_of_hold {q : Nat} (h : Wf s (hold e q)) : ∃ i, s.inodes q = some i := by
  cases hi : s.inodes q with
  | some i => exact ⟨i, rfl⟩
  | none =>
    have := h.heap.extra q hi
    rw [hold_self] at this
    omega

theorem St.Has.named {j : Nat} (h : s.Has name j) (hj : j < dirEntries) :
    s.Named (s.slot j).inodeSector := ⟨j, hj, h.1, rfl⟩

theorem ok_filesysOpen (h : Wf s e) (name : Name) :
    Ok (filesysOpen name) s fun found s' => Wf s' e ∧ Tame s s' ∧
      match found with
      | none => s'.view = s.view ∧ s'.files = s.files ∧ (s.mem = [] → ∀ j < dirEntries, ¬ s.Has name j)
      | some g => s.view g = none ∧ s'.Handle g ∧ ∃ j < dirEntries, s.Has name j ∧
          s'.view = update s.view g (some ((s.slot j).inodeSector, 0)) ∧
          ∃ q, s'.files = update s.files g (some ⟨q, 0, false⟩) := by
  have hl := h.layout
  unfold filesysOpen
  rw [ok_bind]
  refine (ok_dirOpenRoot h).mono ?_
  rintro dir u ⟨hq, hdisk, hmap, hdir⟩
  cases dir with
  | none =>
    rw [ok_fileOpen_none]
    exact ⟨hdir.2.setMem _, (hq.trans (Quiet.tail u) hl).toTame, hq.view, hq.files, fun hm => absurd hm hdir.1⟩
  | some p =>
    obtain ⟨hu, r, hr⟩ := hdir
    have hslot : ∀ k < dirEntries, u.slot k = s.slot k := fun k hk => hq.toCalm.slot_eq hl hk
    -- the file was not found, or its inode could not be opened
    have hnone : ∀ v r, Wf v (hold e p) → v.RootAt p r → Quiet s v → (s.mem = [] → ∀ j < dirEntries, ¬ s.Has name j) →
        Ok (dirClose (some p) >>= fun _ => fileOpen none) v fun found s' => Wf s' e ∧ Tame s s' ∧
          found = none ∧ s'.view = s.view ∧ s'.files = s.files ∧ (s.mem = [] → ∀ j < dirEntries, ¬ s.Has name j) := by
      intro v r hv hrv hqv hno
      rw [ok_bind]
      refine (ok_dirClose hv hrv).mono ?_
      rintro _ w ⟨hw, hqw, -⟩
      have hqs := hqv.trans hqw hl
      rw [ok_fileOpen_none]
      exact ⟨hw.setMem _, (hqs.trans (Quiet.tail w) hl).toTame, rfl, hqs.view, hqs.files, hno⟩
    dsimp only
    unfold dirLookup
    rw [ok_bind, ok_bind]
    refine (ok_lookup hu hr name).mono ?_
    rintro found v ⟨m₁, rfl, hm₁, hfound⟩
    have hqv : Quiet s (u.setMem m₁) := hq.trans (Quiet.setMem u hm₁) hl
    cases found with
    | none =>
      rw [ok_pure]
      refine (hnone _ r (hu.setMem m₁) ⟨hr.inode, hr.sector⟩ hqv fun hm j hj => ?_).mono ?_
      · rw [← hq.toCalm.has_iff hl hj]
        exact hfound (hq.mem hm) j hj
      · rintro found s' ⟨h1, h2, rfl, h3⟩
        exact ⟨h1, h2, h3⟩
    | some be =>
      obtain ⟨bs, ofs⟩ := be
      obtain ⟨j, hj, -, hj', rfl⟩ := hfound
      have hjs := (hq.toCalm.has_iff hl hj).mp hj'
      have hent : (entryOf (readBytes u.disk u.root.start (j * entrySize) entrySize)).inodeSector =
          (s.slot j).inodeSector := by
        rw [← u.slot_eq_entryOf, hslot j hj]
      dsimp only
      rw [hent]
      have hlive : (s.slot j).inodeSector ∈ (u.setMem m₁).live := by
        rw [← hslot j hj]
        exact St.named_mem (s := u) (hj'.named hj)
      refine (ok_inodeOpen (hu.setMem m₁) hlive).mono ?_
      rintro found v ⟨hqv', -, -, hino, hv⟩
      have hqs : Quiet s v := hqv.trans hqv' hl
      obtain ⟨r', hr', hsec'⟩ := hino p r hr.inode
      have hrv : v.RootAt p r' := ⟨hr', hsec'.trans hr.sector⟩
      cases found with
      | none =>
        refine (hnone v r' hv.2 hrv hqs fun hm => absurd (hqv.mem hm) hv.1).mono ?_
        rintro found s' ⟨h1, h2, rfl, h3⟩
        exact ⟨h1, h2, h3⟩
      | some q =>
        obtain ⟨hv, i, hi, hsec⟩ := hv
        rw [hold_comm] at hv
        rw [ok_bind]
        refine (ok_dirClose hv hrv).mono ?_
        rintro _ w ⟨hw, hqw, -, -, hback⟩
        have hqsw := hqs.trans hqw hl
        obtain ⟨i', hi'⟩ := hw.inode_of_hold
        obtain ⟨k, hk, hks⟩ := hback q i' hi'
        rw [hi] at hk
        cases hk
        have hsec : i'.sector = (s.slot j).inodeSector := hks.symm.trans hsec
        obtain ⟨h0, h1⟩ := hl.named _ (hjs.named hj)
        refine (ok_fileOpen hw hi' (by rw [hsec]; exact h1) (by rw [hsec]; exact h0)).mono ?_
        rintro found s' ⟨hs', hc, hres⟩
        refine ⟨hs', hqsw.toTame.trans hc hl, ?_⟩
        cases found with
        | none => exact ⟨hres.2.1.trans hqsw.view, hres.2.2.trans hqsw.files, fun hm => absurd (hqsw.mem hm) hres.1⟩
        | some g =>
          obtain ⟨h1, h2, h3, h4⟩ := hres
          rw [hqsw.view] at h1 h3
          rw [hqsw.files] at h4
          rw [hsec] at h3
          exact ⟨h1, h2, j, hj, hjs, h3, q, h4⟩

/-! ## `filesys_remove` -/

/-- What `filesys_remove` may write: the file of the map and the directory. -/
def St.DirWritable (s : St) (z : Nat) : Prop := (s.dinode freeMapSector).Data z ∨ s.root.Data z

/-- An entry is erased and its inode marked removed. -/
theorem ok_dirErase {q : Nat} {i : Inode} (h : Wf s (hold e q)) (hr : s.RootAt p r) {j : Nat}
    (hj : j < dirEntries) (huse : (s.slot j).inUse = true) (hi : s.inodes q = some i)
    (hsec : i.sector = (s.slot j).inodeSector) :
    Ok (dirErase p q (readBytes s.disk s.root.start (j * entrySize) entrySize) (j * entrySize)) s fun ok s' =>
      Wf s' e ∧ s'.files = s.files ∧ s'.view = s.view ∧ Touch s.DirWritable s s' ∧
      (∀ k l, s'.inodes k = some l → ∃ m, s.inodes k = some m ∧ m.sector = l.sector) ∧
      (∀ x d, s.Gone x d → s'.Gone x d) ∧
      match ok with
      | false => s.mem ≠ [] ∧ ∀ k < dirEntries, s'.slot k = s.slot k
      | true => (s'.slot j).inUse = false ∧ (∀ k < dirEntries, k ≠ j → s'.slot k = s.slot k) ∧
          s'.Gone i.sector i.data := by
  have hl := h.layout
  unfold dirErase
  rw [ok_bind]
  have hlen : (freeEntry (readBytes s.disk s.root.start (j * entrySize) entrySize)).length = entrySize := by
    rw [freeEntry, List.length_set, length_readBytes]
  refine (ok_writeSlot h hr hlen (Nat.le_of_lt hj) s.mem).mono ?_
  rintro k u ⟨m', hm', hk⟩
  rcases hk with ⟨hk, rfl, hend⟩ | ⟨hk, -, disk, hu, hout, hslot⟩
  · rw [if_neg hk, ok_bind]
    refine (ok_inodeClose (h.setMem m')).mono ?_
    rintro _ v ⟨hv, hq, -, hino⟩
    have hqs : Quiet s v := (Quiet.setMem s hm').trans hq hl
    exact (ok_pure _).mpr ⟨hv, hqs.files, hqs.view, hqs.toCalm.touch fun z hz => .inl hz, hino, hqs.gone,
      fun hm => absurd (hend hm) (Nat.ne_of_lt hj), fun k hk => hqs.toCalm.slot_eq hl hk⟩
  · have hfree : (entryOf (freeEntry (readBytes s.disk s.root.start (j * entrySize) entrySize))).inUse = false :=
      entryOf_freeEntry (length_readBytes ..)
    generalize entryOf (freeEntry (readBytes s.disk s.root.start (j * entrySize) entrySize)) = ent at hslot hfree
    have hwu : Wf u (hold e q) := by
      rw [hu]
      exact ⟨h.heap.congr s.freeMap disk m', hl.setSlot hout hslot fun huse => by rw [hfree] at huse; cases huse⟩
    have huslot : ∀ k, u.slot k = if k = j then ent else s.slot k := fun k => by rw [hu, hslot k]
    have hui : u.inodes q = some i := by rw [hu]; exact hi
    -- no other entry names the inode
    have hnot : ¬ u.Named i.sector := by
      rintro ⟨k, hk, hku, hks⟩
      rw [huslot] at hku hks
      by_cases hkj : k = j
      · rw [if_pos hkj, hfree] at hku
        cases hku
      · rw [if_neg hkj] at hku hks
        exact hkj (hl.slots k j hk hj hku huse (hks.trans hsec))
    obtain ⟨h0, h1⟩ := hl.named i.sector (hsec ▸ ⟨j, hj, huse, rfl⟩)
    have hwr := hwu.setRemoved hui hnot h0 h1
    rw [if_pos hk, ok_bind]
    unfold inodeRemove
    rw [ok_bind, ok_inodeAt hui, ok_fsModify, ok_bind]
    refine (ok_inodeClose hwr).mono ?_
    rintro _ v ⟨hv, hq, -, hino⟩
    have hur : u.root = s.root := by
      simp only [St.root, St.dinode, hu, St.setMem_disk, St.setDisk_disk, hout _ (hl.apart _ s.root_mem)]
    have hudin : u.dinode freeMapSector = s.dinode freeMapSector := by
      simp only [St.dinode, hu, St.setMem_disk, St.setDisk_disk, hout _ (hl.not_data s.root_mem s.map_mem)]
    have hvslot : ∀ k < dirEntries, v.slot k = if k = j then ent else s.slot k := fun k hk => by
      rw [hq.toCalm.slot_eq hwr.layout hk]
      exact huslot k
    have htu : Touch s.DirWritable s u := by
      refine ⟨by rw [hu]; rfl, by rw [hu]; rfl, fun z hz => ?_, fun hm => by rw [hu]; exact hm' hm, fun _ hs => ?_⟩
      · rw [hu]
        exact hout z fun hd => hz (.inr hd)
      · refine hl.synced_of (by rw [hu]; rfl) (by rw [hu]; rfl) (fun z hz => ?_) hs
        rw [hu]
        refine hout z fun hd => ?_
        rcases hz with rfl | hz
        · exact hl.not_data s.root_mem s.map_mem hd
        · exact hl.data_disjoint s.map_mem s.root_mem (by decide) hz hd
    have hcr : Calm u (u.setInode q (some { i with removed := true })) := .of_disk_eq rfl rfl rfl rfl id
    have htr : Touch s.DirWritable u (u.setInode q (some { i with removed := true })) :=
      hcr.touch fun z hz => .inl (hudin ▸ hz)
    have htv : Touch s.DirWritable (u.setInode q (some { i with removed := true })) v :=
      hq.toCalm.touch fun z hz => .inl (hudin ▸ hz)
    have hview : (u.setInode q (some { i with removed := true })).view = s.view := by
      rw [view_setInode (j := { i with removed := true }) hui rfl]
      exact view_eq (by rw [hu]; rfl) fun g f _ => by rw [hu]; rfl
    refine (ok_pure _).mpr ⟨hv, hq.files.trans (by rw [hu]; rfl), hq.view.trans hview, (htu.trans htr).trans htv,
      fun k l hkl => ?_, fun x d hg => hq.gone x d ?_, ?_, fun k hk hne => ?_, hq.gone _ _ (.inl ⟨q, _,
        update_self .., rfl, rfl, rfl⟩)⟩
    · obtain ⟨m, hm, hms⟩ := hino k l hkl
      rw [St.setInode_inodes] at hm
      by_cases hkq : k = q
      · rw [hkq, update_self] at hm
        cases hm
        exact ⟨i, hkq ▸ hi, hms⟩
      · rw [update_of_ne hkq, hu] at hm
        exact ⟨m, hm, hms⟩
    · have hgu : u.Gone x d := hg.of_eq (by rw [hu]; rfl) (by rw [hu]; rfl)
      exact hgu.setInode hui rfl rfl fun _ => rfl
    · rw [hvslot j hj, if_pos rfl]
      exact hfree
    · rw [hvslot k hk, if_neg hne]

theorem ok_filesysRemove (h : Wf s e) (name : Name) :
    Ok (filesysRemove name) s fun ok s' => Wf s' e ∧ s'.files = s.files ∧ s'.view = s.view ∧
      Touch s.DirWritable s s' ∧ (∀ x d, s.Gone x d → s'.Gone x d) ∧
      match ok with
      | false => (∀ k < dirEntries, s'.slot k = s.slot k) ∧ (s.mem = [] → ∀ j < dirEntries, ¬ s.Has name j)
      | true => ∃ j < dirEntries, s.Has name j ∧ (s'.slot j).inUse = false ∧
          (∀ k < dirEntries, k ≠ j → s'.slot k = s.slot k) ∧
          s'.Gone (s.slot j).inodeSector (s.dinode (s.slot j).inodeSector) := by
  have hl := h.layout
  unfold filesysRemove
  rw [ok_bind]
  refine (ok_dirOpenRoot h).mono ?_
  rintro dir u ⟨hq, hdisk, hmap, hdir⟩
  cases dir with
  | none =>
    rw [ok_pure]
    exact ⟨hdir.2, hq.files, hq.view, hq.toCalm.touch fun z hz => .inl hz, hq.gone,
      fun k hk => hq.toCalm.slot_eq hl hk, fun hm => absurd hm hdir.1⟩
  | some p =>
    obtain ⟨hu, r, hr⟩ := hdir
    have hslot : ∀ k < dirEntries, u.slot k = s.slot k := fun k hk => hq.toCalm.slot_eq hl hk
    have hclose : ∀ v r (ok : Bool), Wf v (hold e p) → v.RootAt p r → v.files = s.files → v.view = s.view →
        Touch s.DirWritable s v →
        Ok (dirClose (some p) >>= fun _ => pure ok) v fun ok' s' => ok' = ok ∧ Wf s' e ∧ s'.files = s.files ∧
          s'.view = s.view ∧ Touch s.DirWritable s s' ∧ (∀ x d, v.Gone x d → s'.Gone x d) ∧
          ∀ k < dirEntries, s'.slot k = v.slot k := by
      intro v r ok hv hrv hfiles hview htouch
      rw [ok_bind]
      refine (ok_dirClose hv hrv).mono ?_
      rintro _ w ⟨hw, hqw, -, hdiskw, -⟩
      exact (ok_pure _).mpr ⟨rfl, hw, hqw.files.trans hfiles, hqw.view.trans hview, htouch.calm hqw.toCalm hdiskw,
        hqw.gone, fun k hk => hqw.toCalm.slot_eq hv.layout hk⟩
    dsimp only
    unfold dirRemove
    rw [ok_bind, ok_bind]
    refine (ok_lookup hu hr name).mono ?_
    rintro found v ⟨m₁, rfl, hm₁, hfound⟩
    have hqv : Quiet s (u.setMem m₁) := hq.trans (Quiet.setMem u hm₁) hl
    cases found with
    | none =>
      rw [ok_pure]
      refine (hclose _ r false (hu.setMem m₁) ⟨hr.inode, hr.sector⟩ hqv.files hqv.view
        (hqv.toCalm.touch fun z hz => .inl hz)).mono ?_
      rintro ok s' ⟨rfl, h1, h2, h3, h4, hg, h5⟩
      refine ⟨h1, h2, h3, h4, fun x d hx => hg x d (hqv.gone x d hx), fun k hk => (h5 k hk).trans (hslot k hk),
        fun hm j hj => ?_⟩
      rw [← hq.toCalm.has_iff hl hj]
      exact hfound (hq.mem hm) j hj
    | some be =>
      obtain ⟨bs, ofs⟩ := be
      obtain ⟨j, hj, rfl, hj', rfl⟩ := hfound
      have hjs := (hq.toCalm.has_iff hl hj).mp hj'
      have hent : (entryOf (readBytes u.disk u.root.start (j * entrySize) entrySize)).inodeSector =
          (u.slot j).inodeSector := by
        rw [← u.slot_eq_entryOf]
      dsimp only
      rw [hent, ok_bind]
      refine (ok_inodeOpen (hu.setMem m₁) (St.named_mem (s := u) (hj'.named hj))).mono ?_
      rintro found v ⟨hqv', hdisk', -, hino, hv⟩
      have hqs : Quiet s v := hqv.trans hqv' hl
      obtain ⟨r', hr', hsec'⟩ := hino p r hr.inode
      have hrv : v.RootAt p r' := ⟨hr', hsec'.trans hr.sector⟩
      have hvslot : ∀ k < dirEntries, v.slot k = s.slot k := fun k hk => hqs.toCalm.slot_eq hl hk
      cases found with
      | none =>
        rw [ok_pure]
        refine (hclose v r' false hv.2 hrv hqs.files hqs.view (hqs.toCalm.touch fun z hz => .inl hz)).mono ?_
        rintro ok s' ⟨rfl, h1, h2, h3, h4, hg, h5⟩
        exact ⟨h1, h2, h3, h4, fun x d hx => hg x d (hqs.gone x d hx), fun k hk => (h5 k hk).trans (hvslot k hk),
          fun hm => absurd (hqv.mem hm) hv.1⟩
      | some q =>
        obtain ⟨hv, i, hi, hsec⟩ := hv
        dsimp only
        have hroot : v.root = u.root := by simp only [St.root, St.dinode, hdisk']; rfl
        have hvu : (u.slot j).inodeSector = (v.slot j).inodeSector := by rw [hvslot j hj, hslot j hj]
        have hread : readBytes u.disk u.root.start (j * entrySize) entrySize =
            readBytes v.disk v.root.start (j * entrySize) entrySize := by rw [hroot, hdisk']; rfl
        rw [hread]
        refine (ok_dirErase hv hrv hj (by rw [hvslot j hj]; exact hjs.1) hi (hsec.trans hvu)).mono ?_
        rintro ok w ⟨hw, hfw, hvw, htw, hinow, hgw, hres⟩
        have hdw : v.DirWritable = s.DirWritable := by
          have h1 : v.disk = s.disk := hdisk'.trans hdisk
          funext z
          simp only [St.DirWritable, St.root, St.dinode, h1]
        rw [hdw] at htw
        have htouch : Touch s.DirWritable s w := (hqs.toCalm.touch fun z hz => .inl hz).trans htw
        obtain ⟨r'', hr''⟩ := hw.inode_of_hold
        obtain ⟨k, hk, hks⟩ := hinow p r'' hr''
        rw [hr'] at hk
        cases hk
        refine (hclose w r'' ok hw ⟨hr'', hks.symm.trans hrv.sector⟩ (hfw.trans hqs.files) (hvw.trans hqs.view)
          htouch).mono ?_
        rintro ok' s' ⟨rfl, h1, h2, h3, h4, hg, h5⟩
        refine ⟨h1, h2, h3, h4, fun x d hx => hg x d (hgw x d (hqs.gone x d hx)), ?_⟩
        cases ok' with
        | false =>
          exact ⟨fun k hk => (h5 k hk).trans ((hres.2 k hk).trans (hvslot k hk)), fun hm => absurd (hqs.mem hm) hres.1⟩
        | true =>
          obtain ⟨hfree, hother, hgone⟩ := hres
          have hx : i.sector = (s.slot j).inodeSector := by rw [hsec, hslot j hj]
          have hd : i.data = s.dinode (s.slot j).inodeSector := by
            rw [hv.layout.data q i hi, hx]
            simp only [St.dinode, hdisk', St.setMem_disk, hdisk]
          rw [hx, hd] at hgone
          exact ⟨j, hj, hjs, by rw [h5 j hj]; exact hfree, fun k hk hne =>
            (h5 k hk).trans ((hother k hk hne).trans (hvslot k hk)), hg _ _ hgone⟩

end Pintos.Fs
