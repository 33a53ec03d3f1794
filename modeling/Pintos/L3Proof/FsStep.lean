import Pintos.L3Proof.FsInit

/-!
# One call

What every call of the rest of the kernel keeps, whichever allocations fail:
the file system is well formed, its map stays on the device, and the sectors
of a live file change only when the call writes through a handle on it and
writes are not denied. A call panics only on a negative size, position or
offset.
-/
namespace Pintos.Fs

open Pintos.Core

variable {s s' : St} {e : Nat → Nat} {op : Op}

/-- The call is made with an open handle. -/
def Op.Valid (op : Op) (s : St) : Prop := ∀ g, op.handle = some g → s.Handle g

/-- A handle on the inode in sector `x` denies writes. -/
def St.Denied (s : St) (x : Nat) : Prop :=
  ∃ g f i, s.files g = some f ∧ f.denyWrite = true ∧ s.inodes f.inode = some i ∧ i.sector = x

/-- The handle a call writes through. -/
def Op.target : Op → Option Nat
  | .write g _ | .writeAt g _ _ => some g
  | _ => none

/-- The call writes to the file in sector `x`. -/
def Op.Writes (op : Op) (s : St) (x : Nat) : Prop :=
  ∃ g pos, op.target = some g ∧ s.view g = some (x, pos) ∧ ¬ s.Denied x

structure Stepped (op : Op) (s s' : St) : Prop where
  wf : Wf s' noHold
  devSize : s'.devSize = s.devSize
  mapFile : s'.freeMapFile = s.freeMapFile
  mem : s.mem = [] → s'.mem = []
  synced : s.mem = [] → s.Synced → s'.Synced
  keep : ∀ x ∈ s.live, x ≠ freeMapSector → x ≠ rootDirSector → ¬ op.Writes s x →
    ∀ z ∈ s.extent x, s'.disk z = s.disk z

variable {i : Inode} {g ofs : Nat} {bs : List Byte}

/-- Writes to an inode are denied when its count says so. -/
theorem Wf.denied_iff (h : Wf s e) {p : Nat} (hi : s.inodes p = some i) :
    s.Denied i.sector ↔ i.denyWriteCnt ≠ 0 := by
  constructor
  · rintro ⟨g, f, j, hf, hd, hj, hsec⟩
    obtain rfl := h.heap.inj _ _ _ _ hj hi hsec
    rw [hj] at hi
    cases hi
    exact Nat.ne_of_gt (h.deny_pos hf hd hj)
  · intro hne
    rw [h.heap.denyCnt p i hi] at hne
    obtain ⟨g, f, -, hf, hP⟩ := exists_of_count_pos (Nat.pos_of_ne_zero hne)
    rw [Bool.and_eq_true, beq_iff_eq] at hP
    obtain ⟨rfl, hd⟩ := hP
    exact ⟨g, f, i, hf, hd, hi, rfl⟩

/-- What `filesys_create` may write belongs to no other live inode. -/
theorem Layout.not_writable (hl : Layout s) {x : Nat} (hx : x ∈ s.live) (h0 : x ≠ freeMapSector)
    (h1 : x ≠ rootDirSector) {z : Nat} (hz : z ∈ s.extent x) : ¬ s.Writable z := by
  rintro (hd | hd | hfree)
  · exact h0 (hl.owned.eq_of_mem hx s.map_mem hz (.inr hd))
  · exact h1 (hl.owned.eq_of_mem hx s.root_mem hz (.inr hd))
  · exact hl.not_mem_extent hfree hx hz

/-- A call that writes to no file. -/
theorem Touch.stepped (h : Touch s.Writable s s') (hl : Layout s) (hw : Wf s' noHold) : Stepped op s s' :=
  ⟨hw, h.devSize, h.mapFile, h.mem, h.synced,
    fun _ hx h0 h1 _ z hz => h.disk z (hl.not_writable hx h0 h1 hz)⟩

theorem Calm.stepped (h : Calm s s') (hl : Layout s) (hw : Wf s' noHold) : Stepped op s s' :=
  (h.touch fun _ hz => .inl hz).stepped hl hw

/-- A write through handle `g`. -/
theorem Wf.stepped_write (h : Wf s noHold) {pos p : Nat} (hop : op.target = some g)
    (hview : s.view g = some (i.sector, pos)) (hi : s.inodes p = some i) (hmap : i.sector ≠ freeMapSector)
    (hw : Wf s' noHold) (hdev : s'.devSize = s.devSize) (hfile : s'.freeMapFile = s.freeMapFile)
    (hfm : s'.freeMap = s.freeMap) (hmem : s.mem = [] → s'.mem = [])
    (hout : ∀ z, ¬ (s.dinode i.sector).Data z → s'.disk z = s.disk z)
    (hden : i.denyWriteCnt ≠ 0 → s'.disk = s.disk) : Stepped op s s' := by
  have hl := h.layout
  have hlive := St.open_mem hi
  -- only sectors of the file that is written change
  have hother : ∀ x ∈ s.live, x ≠ i.sector → ∀ z ∈ s.extent x, s'.disk z = s.disk z := fun x hx hne z hz =>
    hout z fun hd => hne (hl.owned.eq_of_mem hx hlive hz (.inr hd))
  refine ⟨hw, hdev, hfile, hmem, fun _ hs => hl.synced_of hdev hfm (hother _ s.map_mem hmap.symm) hs, ?_⟩
  intro x hx _ _ hnot z hz
  by_cases hxi : x = i.sector
  · subst hxi
    have hdenied : s.Denied i.sector := by
      by_contra hno
      exact hnot ⟨g, pos, hop, hview, hno⟩
    rw [hden ((h.denied_iff hi).mp hdenied)]
  · exact hother x hx hxi z hz

/-! ## Sizes and offsets that are refused -/

/-- `filesys_create` of a negative size: the kernel panics unless there is no
sector for the inode. -/
theorem exits_filesysCreate_neg (h : Wf s e) (name : Name) {size : Int} (hsize : size < 0) (buf : List Byte) :
    Exits (filesysCreate name size buf) s (fun ok s' => ok = false ∧ Wf s' e ∧ Calm s s' ∧
      s'.freeMap = s.freeMap ∧ s'.view = s.view) fun e => e = .length := by
  unfold filesysCreate
  refine exits_bind ((ok_dirOpenRoot h).mono ?_).exits
  rintro dir u ⟨hq, hdisk, hmap, hdir⟩
  cases dir with
  | none =>
    refine Ok.exits ?_
    unfold createSteps
    dsimp only
    rw [ok_bind, ok_pure]
    dsimp only
    rw [undoCreate, if_neg (by simp), ok_bind, ok_pure, dirClose, inodeClose, ok_bind, ok_pure, ok_pure]
    exact ⟨rfl, hdir.2, hq.toCalm, hmap, hq.view⟩
  | some p =>
    obtain ⟨hu, r, hr⟩ := hdir
    obtain ⟨mi, hmi, -, hmd⟩ := hu.mapInode
    refine exits_bind (exits_bind ((ok_freeMapAllocate hmi 1).mono fun found v hv => ?_).exits)
    cases found with
    | some x =>
      refine exits_bind ?_
      unfold inodeCreate
      rw [if_pos hsize]
      exact exits_fail rfl
    | none =>
      rw [hmd] at hv
      have hw : Wf v (hold e p) := hu.saved hv.1 fun y hy z hz => hu.layout.used_of_mem hy hz
      have hino : v.inodes = u.inodes := by rw [hv.1.rest]; rfl
      have hrv : v.RootAt p r := ⟨by rw [hino]; exact hr.inode, hr.sector⟩
      have hcalm : Calm u v := .of_saved hu.layout hv.1 fun hm hs => by
        obtain ⟨-, rfl⟩ := hv.2 hm
        exact hs
      refine exits_pure (Ok.exits ?_)
      dsimp only
      rw [undoCreate, if_neg (by simp), ok_bind, ok_pure, ok_bind]
      refine (ok_dirClose hw hrv).mono ?_
      rintro _ w ⟨hww, hqw, hmapw, -, -⟩
      have hview : v.view = u.view := view_eq (by rw [hv.1.rest]; rfl) fun g f _ => by rw [hino]
      refine (ok_pure _).mpr ⟨rfl, hww, (hq.toCalm.trans hcalm h.layout).trans hqw.toCalm h.layout, ?_,
        hqw.view.trans (hview.trans hq.view)⟩
      rw [hmapw, hv.1.rest]
      exact hmap

/-- The panics that a call may end in. -/
def Panic.Refused (p : Panic) : Prop := p = .length ∨ p = .seek ∨ p = .negative

theorem exits_readAt (h : Wf s e) {f : File} (hf : s.files g = some f)
    (hi : s.inodes f.inode = some i) (size ofs : Int) :
    Exits (fileReadAt g size ofs) s (fun bs s' => ∃ k m',
      bs = readBytes s.disk i.data.start ofs.toNat k ∧ s' = s.setMem m' ∧
        Upto ofs.toNat (min size.toNat (i.data.length - ofs.toNat)) s.mem k m') Panic.Refused := by
  by_cases hofs : 0 < size ∧ ofs < 0
  · unfold fileReadAt inodeReadAt
    refine exits_bind ((ok_fileAt hf).mpr ?_).exits
    refine exits_bind ((ok_inodeAt hi).mpr ?_).exits
    rw [if_pos hofs]
    exact exits_fail (.inr (.inr rfl))
  · exact (ok_fileReadAt h hf hi size ofs fun hpos => by omega).exits

theorem exits_writeAt (h : Wf s e) {f : File} (hf : s.files g = some f)
    (hi : s.inodes f.inode = some i) (hroot : i.sector ≠ rootDirSector) (bs : List Byte) (ofs : Int) :
    Exits (fileWriteAt g bs ofs) s (fun k s' => ∃ disk m',
      s' = (s.setDisk disk).setMem m' ∧
        disk = writeBytes s.disk (s.dinode i.sector).start ofs.toNat (bs.take k) ∧
        Wrote s i bs ofs.toNat k m' ∧ Wf s' e ∧ ∀ z, ¬ (s.dinode i.sector).Data z → disk z = s.disk z)
      Panic.Refused := by
  by_cases hofs : bs ≠ [] ∧ ofs < 0
  · by_cases hd : i.denyWriteCnt = 0
    · unfold fileWriteAt inodeWriteAt
      refine exits_bind ((ok_fileAt hf).mpr ?_).exits
      refine exits_bind ((ok_inodeAt hi).mpr ?_).exits
      rw [if_neg (not_not_intro hd), if_pos hofs]
      exact exits_fail (.inr (.inr rfl))
    · unfold fileWriteAt inodeWriteAt
      refine Ok.exits ?_
      rw [ok_bind, ok_fileAt hf, ok_bind, ok_inodeAt hi, if_pos hd, ok_pure]
      refine ⟨s.disk, s.mem, rfl, ?_, ⟨fun h0 => absurd h0 hd, fun _ => ⟨rfl, rfl⟩⟩, h, fun _ _ => rfl⟩
      rw [List.take_zero, writeBytes_nil]
  · exact ((ok_fileWriteAt hf).mpr <| ok_inodeWriteAt_handle h hi hroot fun hne => by
      by_contra hneg
      exact hofs ⟨hne, by omega⟩).exits

/-- A write that is denied leaves the disk alone. -/
theorem Wrote.disk_eq {k start : Nat} {m' : List Bool} (h : Wrote s i bs ofs k m')
    (hd : i.denyWriteCnt ≠ 0) : writeBytes s.disk start ofs (bs.take k) = s.disk := by
  rw [(h.denied hd).1, List.take_zero, writeBytes_nil]

theorem Wrote.mem {k : Nat} {m' : List Bool} (h : Wrote s i bs ofs k m')
    (hm : s.mem = []) : m' = [] := by
  by_cases hd : i.denyWriteCnt = 0
  · exact ((h.upto hd).full hm).2
  · rw [(h.denied hd).2, hm]

/-- `old` with `bs` at `ofs`, cut off at the end of `old`. -/
def overwrite (old : List Byte) (ofs : Nat) (bs : List Byte) : List Byte :=
  (List.range old.length).map fun k => if ofs ≤ k ∧ k < ofs + bs.length then bs.getD (k - ofs) 0 else old.getD k 0

/-- Reading back what was written. -/
theorem readBytes_overwrite (disk : Nat → Block) (start ofs n : Nat) (bs : List Byte) :
    readBytes (writeBytes disk start ofs bs) start 0 n = overwrite (readBytes disk start 0 n) ofs bs := by
  unfold overwrite
  rw [length_readBytes]
  refine List.map_congr_left fun k hk => ?_
  rw [List.mem_range] at hk
  rw [byteOf_writeBytes, getD_readBytes _ _ _ _ hk, Nat.zero_add]

/-- What a write does to the file: its inode stays, its bytes are overwritten. -/
theorem content_write (hl : Layout s) {x : Nat} (hx : x ∈ s.live) {disk : Nat → Block} (hdisk : s'.disk = disk)
    (hwr : disk = writeBytes s.disk (s.dinode x).start ofs bs)
    (hout : ∀ z, ¬ (s.dinode x).Data z → disk z = s.disk z) : s'.content x = overwrite (s.content x) ofs bs := by
  have hdin : s'.dinode x = s.dinode x := by
    simp only [St.dinode, hdisk, hout x (hl.apart x hx)]
  unfold St.content
  rw [hdin, hdisk, hwr, readBytes_overwrite]

/-- What every call keeps. -/
theorem exits_op (h : Wf s noHold) (hv : op.Valid s) :
    Exits op.code s (fun _ s' => Stepped op s s') Panic.Refused := by
  have hl := h.layout
  have hhandle : ∀ g, op.handle = some g → ∃ f i, s.files g = some f ∧ s.freeMapFile ≠ some g ∧
      s.inodes f.inode = some i ∧ i.sector ≠ rootDirSector ∧ i.sector ≠ freeMapSector := fun g hg => by
    obtain ⟨hsome, hmap⟩ := hv g hg
    obtain ⟨f, hf⟩ := Option.isSome_iff_exists.mp hsome
    obtain ⟨i, hi, hroot, h0⟩ := h.inode_of_handle hf hmap
    exact ⟨f, i, hf, hmap, hi, hroot, h0⟩
  cases op with
  | create name size buf =>
    refine exits_map ?_
    by_cases hsize : size < 0
    · refine (exits_filesysCreate_neg h name hsize buf).mono ?_ fun _ he => .inl he
      rintro _ s' ⟨-, hw, hc, -⟩
      exact hc.stepped hl hw
    · obtain ⟨n, rfl⟩ := Int.eq_ofNat_of_zero_le (Int.not_lt.mp hsize)
      refine ((ok_filesysCreate h name n buf).mono ?_).exits
      rintro _ s' ⟨hw, ht, -⟩
      exact ht.stepped hl hw
  | «open» name =>
    refine exits_map ((ok_filesysOpen h name).mono ?_).exits
    rintro _ s' ⟨hw, hc, -⟩
    exact hc.stepped hl hw
  | remove name =>
    refine exits_map ((ok_filesysRemove h name).mono ?_).exits
    rintro _ s' ⟨hw, -, -, ht, -⟩
    refine Touch.stepped ⟨ht.devSize, ht.mapFile, fun z hz => ht.disk z fun hd => hz ?_, ht.mem, ht.synced⟩ hl hw
    rcases hd with hd | hd
    · exact .inl hd
    · exact .inr (.inl hd)
  | reopen g =>
    obtain ⟨f, i, hf, hmap, -⟩ := hhandle g rfl
    refine exits_map ((ok_fileReopen h hf hmap).mono ?_).exits
    rintro _ s' ⟨hw, hc, -⟩
    exact hc.stepped hl hw
  | close g =>
    obtain ⟨f, i, hf, hmap, -⟩ := hhandle g rfl
    refine exits_map ((ok_fileClose h hf hmap).mono ?_).exits
    rintro _ s' ⟨hw, hc, -⟩
    exact hc.stepped hl hw
  | read g size =>
    obtain ⟨f, i, hf, hmap, hi, -⟩ := hhandle g rfl
    refine exits_map ((ok_fileRead h hf hmap hi size).mono ?_).exits
    rintro _ s' ⟨k, m', -, rfl, hu, hw, -⟩
    exact Calm.stepped (.of_disk_eq rfl rfl rfl rfl fun hm => (hu.full hm).2) hl hw
  | write g bs =>
    obtain ⟨f, i, hf, hmap, hi, hroot, h0⟩ := hhandle g rfl
    refine exits_map ((ok_fileWrite h hf hmap hi hroot bs).mono ?_).exits
    rintro k s' ⟨disk, m', rfl, hdisk, hwr, hw, -, hout⟩
    exact h.stepped_write rfl (St.view_eq_some hf hi) hi h0 hw rfl rfl rfl hwr.mem hout
      fun hd => hdisk.trans (hwr.disk_eq hd)
  | readAt g size ofs =>
    obtain ⟨f, i, hf, hmap, hi, -⟩ := hhandle g rfl
    refine exits_map ((exits_readAt h hf hi size ofs).mono ?_ fun _ => id)
    rintro _ s' ⟨k, m', -, rfl, hu⟩
    exact Calm.stepped (.of_disk_eq rfl rfl rfl rfl fun hm => (hu.full hm).2) hl (h.setMem m')
  | writeAt g bs ofs =>
    obtain ⟨f, i, hf, hmap, hi, hroot, h0⟩ := hhandle g rfl
    refine exits_map ((exits_writeAt h hf hi hroot bs ofs).mono ?_ fun _ => id)
    rintro k s' ⟨disk, m', rfl, hdisk, hwr, hw, hout⟩
    exact h.stepped_write rfl (St.view_eq_some hf hi) hi h0 hw rfl rfl rfl hwr.mem hout
      fun hd => hdisk.trans (hwr.disk_eq hd)
  | seek g pos =>
    obtain ⟨f, i, hf, hmap, hi, -⟩ := hhandle g rfl
    refine exits_map ?_
    by_cases hpos : pos < 0
    · unfold fileSeek
      refine exits_bind ((ok_fileAt hf).mpr ?_).exits
      rw [if_pos hpos]
      exact exits_fail (.inr (.inl rfl))
    · refine ((ok_fileSeek h hf hmap hi (Int.not_lt.mp hpos)).mono ?_).exits
      rintro _ s' ⟨rfl, hw, -⟩
      exact Calm.stepped (.of_disk_eq rfl rfl rfl rfl id) hl hw
  | denyWrite g =>
    obtain ⟨f, i, hf, hmap, -⟩ := hhandle g rfl
    refine exits_map ((ok_fileDenyWrite h hf hmap).mono ?_).exits
    rintro _ s' ⟨hw, hc, -⟩
    exact hc.stepped hl hw
  | allowWrite g =>
    obtain ⟨f, i, hf, hmap, -⟩ := hhandle g rfl
    refine exits_map ((ok_fileAllowWrite h hf hmap).mono ?_).exits
    rintro _ s' ⟨hw, hc, -⟩
    exact hc.stepped hl hw

theorem Wf.refused (h : Wf s noHold) (hv : op.Valid s) {p : Panic} (he : op.code s = .error p) : p.Refused := by
  rcases exits_op h hv with ⟨r, u, hok, -⟩ | ⟨e, hok, hE⟩
  · rw [he] at hok
    cases hok
  · rw [he] at hok
    cases hok
    exact hE

/-! ## Runs -/

/-- A sequence of calls, each with an open handle. -/
inductive Run : St → St → Prop
  | refl (s : St) : Run s s
  | call {s t u : St} {op : Op} {r : Ret} (h : Run s t) (hv : op.Valid t) (he : op.code t = .ok (r, u)) : Run s u

/-- What every call keeps holds after a sequence of calls. -/
theorem Run.wf {t : St} (h : Wf s noHold) (hrun : Run s t) :
    Wf t noHold ∧ t.devSize = s.devSize ∧ (s.mem = [] → t.mem = []) ∧ (s.mem = [] → s.Synced → t.Synced) := by
  induction hrun with
  | refl => exact ⟨h, rfl, id, fun _ => id⟩
  | call _ hv he ih =>
    obtain ⟨hw, hdev, hmem, hsync⟩ := ih
    have hstep := (exits_op hw hv).post he
    exact ⟨hstep.wf, hstep.devSize.trans hdev, fun hm => hstep.mem (hmem hm),
      fun hm hs => hstep.synced (hmem hm) (hsync hm hs)⟩

/-- The file system after `filesys_init`, with the outcomes `mem` of its
allocations: on a device that it has formatted, or on one that was left after
any calls and `filesys_done` by a kernel whose allocations succeeded. -/
inductive Booted : List Bool → St → Prop
  | format {dev : Nat} {disk : Nat → Block} {bits : Nat → Bool} {mem : List Bool} {s : St} (hdev : dev < maxSectors)
      (he : filesysInit bits true (powerOn dev disk mem) = .ok ((), s)) : Booted mem s
  | again {s t u v : St} {bits : Nat → Bool} {mem : List Bool} (h : Booted [] s) (hrun : Run s t)
      (hdone : filesysDone t = .ok ((), u)) (he : filesysInit bits false (powerOn u.devSize u.disk mem) = .ok ((), v)) :
      Booted mem v

theorem Booted.wf {mem : List Bool} (h : Booted mem s) : Wf s noHold ∧ s.Synced ∧ (mem = [] → s.mem = []) := by
  induction h with
  | format hdev he =>
    obtain ⟨hw, hs, -, hm, -⟩ := (exits_format hdev).post he
    exact ⟨hw, hs, hm⟩
  | again _ hrun hdone he ih =>
    obtain ⟨hw, hs, hm⟩ := ih
    obtain ⟨hwt, -, -, hst⟩ := hrun.wf hw
    obtain ⟨hdisk, hdev⟩ := (ok_filesysDone hwt).post hdone
    rw [hdisk, hdev] at he
    obtain ⟨hwv, hsv, -, -, -, hmv, -⟩ := (exits_reboot _ _ hwt (hst (hm rfl) hs)).post he
    exact ⟨hwv, hsv, hmv⟩

end Pintos.Fs
