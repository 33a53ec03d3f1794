import Pintos.L3Proof.FsStep

/-!
# The file system over whole runs

Results about every sequence of calls after `filesys_init`.

* `live_sectors_owned`: live inodes own disjoint sectors that are marked used.
* `free_map_persists`: the map on the device is the map in memory, and is
  read back when the file system is opened again.
* `denied_file_unchanged`: the counts of handles that deny writes, and what
  they do to writes.
* `failed_create_atomic_iff`: when a failed `filesys_create` leaves no trace.
-/
namespace Pintos.Fs

open Pintos.Core

variable {s t : St}

/-! ## Sector ownership -/

/-- In every state reached from a formatted file system the sectors of live
inodes are disjoint, marked used and on the device, and `free_map_release`
finds marked what it is asked to clear. -/
theorem live_sectors_owned {mem : List Bool} (hboot : Booted mem s) (hrun : Run s t) :
    (∀ x ∈ t.live, ∀ y ∈ t.live, x ≠ y → Disjoint (t.extent x) (t.extent y)) ∧
      (∀ x ∈ t.live, ∀ z ∈ t.extent x, t.freeMap z = true ∧ z < t.devSize) ∧
      ∀ op : Op, op.Valid t → op.code t ≠ .error .release := by
  obtain ⟨hw, -⟩ := hrun.wf hboot.wf.1
  have hl := hw.layout
  refine ⟨fun x hx y hy hne => hl.owned.disjoint hx hy hne, fun x hx z hz => ⟨hl.used_of_mem hx hz, ?_⟩,
    fun op hv he => ?_⟩
  · rcases hz with rfl | hz
    · exact hl.lt_dev _ hx
    · exact (hl.onDevice x hx).lt_dev hz
  · rcases hw.refused hv he with h | h | h <;> cases h

/-- A device of eight sectors. -/
def tinyDevice : St := powerOn 8 (fun _ _ => 0) []

def nameA : Name := ⟨[0x61], by decide⟩

/-- The device is formatted and a file of one byte is made. -/
theorem tinyDevice_create : ∃ s t, Booted [] s ∧ Run s t ∧ t.freeMap 5 = true := by
  have h : check (filesysInit (fun _ => false) true) tinyDevice (fun _ s =>
      check (Op.create nameA 1 []).code s fun _ t => t.freeMap 5) = true := by
    decide +kernel
  obtain ⟨_, s, hs, hc⟩ := ok_of_check h
  obtain ⟨r, t, ht, h5⟩ := ok_of_check hc
  exact ⟨s, t, .format (by decide) hs, .call (.refl s) (fun g hg => by cases hg) ht, h5⟩

theorem live_sectors_owned_created : ∃ s t, Booted [] s ∧ Run s t ∧ t.freeMap 5 = true ∧
    ∀ x ∈ t.live, ∀ y ∈ t.live, x ≠ y → Disjoint (t.extent x) (t.extent y) := by
  obtain ⟨s, t, hboot, hrun, h5⟩ := tinyDevice_create
  exact ⟨s, t, hboot, hrun, h5, (live_sectors_owned hboot hrun).1⟩

/-! ## The map on the device -/

/-- Between calls the bytes of the free-map file decode to the map in memory,
and a kernel that opens the device after `filesys_done` reads the same map. -/
theorem free_map_persists (hboot : Booted [] s) (hrun : Run s t) :
    (∀ i < t.devSize, bitmapOfBytes (t.content freeMapSector) t.devSize i = t.freeMap i) ∧
      ∀ bits, ∃ u v, filesysDone t = .ok ((), u) ∧
        filesysInit bits false (powerOn u.devSize u.disk []) = .ok ((), v) ∧ v.devSize = t.devSize ∧
        ∀ i < t.devSize, v.freeMap i = t.freeMap i := by
  obtain ⟨hw, hs, hm⟩ := hboot.wf
  obtain ⟨hwt, -, -, hst⟩ := hrun.wf hw
  have hsync := hst (hm rfl) hs
  refine ⟨fun i hi => ?_, fun bits => ?_⟩
  · unfold St.content
    rw [hwt.layout.mapLength]
    exact hsync i hi
  · obtain ⟨_, u, hu, hdisk, hdev⟩ := ok_filesysDone hwt
    obtain ⟨_, v, hv, -, -, hdevv, -, hmap, -⟩ :=
      (exits_reboot [] bits hwt hsync).ok fun _ hne => hne rfl
    refine ⟨u, v, hu, ?_, hdevv, hmap⟩
    rw [hdisk, hdev]
    exact hv

theorem free_map_persists_created : ∃ s t, Booted [] s ∧ Run s t ∧ t.freeMap 5 = true ∧
    ∀ i < t.devSize, bitmapOfBytes (t.content freeMapSector) t.devSize i = t.freeMap i := by
  obtain ⟨s, t, hboot, hrun, h5⟩ := tinyDevice_create
  exact ⟨s, t, hboot, hrun, h5, (free_map_persists hboot hrun).1⟩

/-! ## Denied writes -/

/-- A file on which a handle denies writes is an ordinary file. -/
theorem Wf.denied_live (h : Wf s noHold) {x : Nat} (hx : s.Denied x) :
    x ∈ s.live ∧ x ≠ freeMapSector ∧ x ≠ rootDirSector := by
  obtain ⟨g, f, i, hf, hd, hi, rfl⟩ := hx
  refine ⟨St.open_mem hi, fun h0 => ?_, fun h1 => ?_⟩
  · exact (h.denied_iff hi).mp ⟨g, f, i, hf, hd, hi, rfl⟩ (h.writable hi (.inl h0))
  · exact (h.denied_iff hi).mp ⟨g, f, i, hf, hd, hi, rfl⟩ (h.writable hi (.inr h1))

/-- The call returns how many of the bytes `bs` it has written at `ofs` of the
file in sector `x`: all that fit, when allocations succeed. -/
def TakesEffect (op : Op) (t : St) (x ofs : Nat) (bs : List Byte) : Prop :=
  Ok op.code t fun r u => ∃ k, r = .count k ∧ u.content x = overwrite (t.content x) ofs (bs.take k) ∧
    (t.mem = [] → k = min bs.length ((t.content x).length - ofs))

/-- The bytes `Wrote` reports are in the file. -/
theorem Wrote.takesEffect (h : Wf t noHold) {p : Nat} {i : Inode} (hi : t.inodes p = some i)
    (hfree : ¬ t.Denied i.sector) {bs : List Byte} {ofs k : Nat} {m' : List Bool} (hwr : Wrote t i bs ofs k m') :
    t.mem = [] → k = min bs.length ((t.content i.sector).length - ofs) := by
  intro hm
  have hd : i.denyWriteCnt = 0 := by
    by_contra hne
    exact hfree ((h.denied_iff hi).mpr hne)
  rw [((hwr.upto hd).full hm).1, h.layout.data p i hi, St.content, length_readBytes]

theorem ok_write_effect (h : Wf t noHold) {g x pos : Nat} (hg : t.Handle g) (hview : t.view g = some (x, pos))
    (hfree : ¬ t.Denied x) (bs : List Byte) :
    TakesEffect (.write g bs) t x pos bs ∧ ∀ ofs : Nat, TakesEffect (.writeAt g bs ofs) t x ofs bs := by
  obtain ⟨f, hf⟩ := Option.isSome_iff_exists.mp hg.1
  obtain ⟨i, hi, hroot, -⟩ := h.inode_of_handle hf hg.2
  rw [St.view_eq_some hf hi] at hview
  cases hview
  refine ⟨?_, fun ofs => ?_⟩
  · refine ok_bind.mpr ((ok_fileWrite h hf hg.2 hi hroot _).mono ?_)
    rintro k u ⟨disk, m', hu, hdisk, hwr, -, -, hout⟩
    have hd : u.disk = disk := by rw [hu]; rfl
    exact (ok_pure _).mpr ⟨k, rfl, content_write h.layout (St.open_mem hi) hd hdisk hout, hwr.takesEffect h hi hfree⟩
  · refine ok_bind.mpr (((ok_fileWriteAt hf).mpr (ok_inodeWriteAt_handle h hi hroot fun _ =>
      Int.natCast_nonneg ofs)).mono ?_)
    rintro k u ⟨disk, m', hu, hdisk, hwr, -, hout⟩
    rw [Int.toNat_natCast] at hdisk hwr
    have hd : u.disk = disk := by rw [hu]; rfl
    exact (ok_pure _).mpr ⟨k, rfl, content_write h.layout (St.open_mem hi) hd hdisk hout, hwr.takesEffect h hi hfree⟩

/-- In every state reached from a formatted file system: `deny_write_cnt` is
the number of handles that deny writes, at most `open_cnt`, so that no
assertion about it fails; while there is such a handle no call changes the
file; without one writes take effect. -/
theorem denied_file_unchanged {mem : List Bool} (hboot : Booted mem s) (hrun : Run s t) :
    (∀ p i, t.inodes p = some i →
      i.denyWriteCnt = {g | ∃ f, t.files g = some f ∧ f.inode = p ∧ f.denyWrite = true}.ncard ∧
      i.denyWriteCnt ≤ i.openCnt) ∧
    (∀ op : Op, op.Valid t → op.code t ≠ .error .deny) ∧
    (∀ x, t.Denied x → ∀ (op : Op) r u, op.Valid t → op.code t = .ok (r, u) →
      u.dinode x = t.dinode x ∧ u.content x = t.content x) ∧
    ∀ g x pos, t.Handle g → t.view g = some (x, pos) → ¬ t.Denied x → ∀ bs,
      TakesEffect (.write g bs) t x pos bs ∧ ∀ ofs : Nat, TakesEffect (.writeAt g bs ofs) t x ofs bs := by
  obtain ⟨hw, -⟩ := hrun.wf hboot.wf.1
  refine ⟨fun p i hi => ⟨?_, hw.deny_le_open hi⟩, fun op hv he => ?_, fun x hx op r u hv he => ?_,
    fun g x pos hg hview hfree bs => ok_write_effect hw hg hview hfree bs⟩
  · rw [hw.heap.denyCnt p i hi, St.denies, count_eq_ncard fun g hg => (hw.heap.below g hg).2]
    simp only [Bool.and_eq_true, beq_iff_eq]
  · rcases hw.refused hv he with h | h | h <;> cases h
  · obtain ⟨hlive, h0, h1⟩ := hw.denied_live hx
    have hstep := (exits_op hw hv).post he
    refine content_eq (hw.layout.onDevice x hlive) (hstep.keep x hlive h0 h1 ?_)
    rintro ⟨-, -, -, -, hfree⟩
    exact hfree hx

/-- A file is made and opened as handle 7, which then denies writes. -/
theorem denied_file_unchanged_opened : ∃ s t, Booted [] s ∧ Run s t ∧ t.Handle 7 ∧ t.Denied 4 ∧
    ∀ bs r u, (Op.write 7 bs).code t = .ok (r, u) → u.content 4 = t.content 4 := by
  have h : check (filesysInit (fun _ => false) true) tinyDevice (fun _ s =>
      check (Op.create nameA 1 []).code s fun _ s₁ =>
      check (Op.open nameA).code s₁ fun _ s₂ =>
      decide (s₂.Handle 7) &&
      check (Op.denyWrite 7).code s₂ fun _ t => decide (t.Handle 7) &&
        (t.files 7).any fun f => f.denyWrite && (t.inodes f.inode).any fun i => i.sector == 4) = true := by
    decide +kernel
  obtain ⟨_, s, hs, hc⟩ := ok_of_check h
  obtain ⟨_, s₁, h₁, hc⟩ := ok_of_check hc
  obtain ⟨_, s₂, h₂, hc⟩ := ok_of_check hc
  rw [Bool.and_eq_true, decide_eq_true_eq] at hc
  obtain ⟨hg, hc⟩ := hc
  obtain ⟨_, t, ht, hc⟩ := ok_of_check hc
  simp only [Bool.and_eq_true, decide_eq_true_eq, Option.any_eq_true, beq_iff_eq] at hc
  obtain ⟨hgt, f, hf, hd, i, hi, h4⟩ := hc
  have hboot : Booted [] s := .format (by decide) hs
  have hrun : Run s t := by
    refine .call (.call (.call (.refl s) (fun g hg => ?_) h₁) (fun g hg => ?_) h₂) (fun g hgo => ?_) ht
    · cases hg
    · cases hg
    · cases hgo
      exact hg
  have hden : t.Denied 4 := ⟨7, f, i, hf, hd, hi, h4⟩
  refine ⟨s, t, hboot, hrun, hgt, hden, fun bs r u he => ?_⟩
  exact ((denied_file_unchanged hboot hrun).2.2.1 4 hden (.write 7 bs) r u (fun g hgo => by cases hgo; exact hgt) he).2

/-! ## Failed creation -/

/-- The map, the directory and the live files are what they were. -/
structure St.Untouched (s s' : St) : Prop where
  freeMap : s'.freeMap = s.freeMap
  root : s'.content rootDirSector = s.content rootDirSector
  files : ∀ x ∈ s.live, x ≠ freeMapSector → s'.dinode x = s.dinode x ∧ s'.content x = s.content x

/-- A failed `filesys_create` leaves no trace. -/
def FailsClean (s : St) (name : Name) (size : Int) (buf : List Byte) : Prop :=
  ∀ s', filesysCreate name size buf s = .ok (false, s') → s.Untouched s'

variable {s' : St}

/-- Nothing is written but free sectors and, outside the directory, the file
of the map. -/
theorem Touch.untouched (h : Touch s.Writable s s') (hl : Layout s) (hmap : s'.freeMap = s.freeMap)
    (hroot : ∀ z ∈ s.extent rootDirSector, s'.disk z = s.disk z) : s.Untouched s' := by
  have hroot' := content_eq (hl.onDevice _ s.root_mem) hroot
  refine ⟨hmap, hroot'.2, fun x hx h0 => ?_⟩
  by_cases h1 : x = rootDirSector
  · rw [h1]
    exact hroot'
  · exact content_eq (hl.onDevice x hx) fun z hz => h.disk z (hl.not_writable hx h0 h1 hz)

theorem Calm.untouched (h : Calm s s') (hl : Layout s) (hmap : s'.freeMap = s.freeMap) : s.Untouched s' :=
  ⟨hmap, (h.content_eq hl s.root_mem (by decide)).2, fun _ hx h0 => h.content_eq hl hx h0⟩

/-- Marking a free run that is not empty changes the map. -/
theorem bitmapSetMultiple_ne {b : Nat → Bool} {st cnt : Nat} (hcnt : cnt ≠ 0) (hfree : b st = false) :
    bitmapSetMultiple b st cnt true ≠ b := fun h => by
  have := congrFun h st
  rw [bitmapSetMultiple_apply, if_pos (by omega), hfree] at this
  cases this

/-- Whichever allocations fail, nothing is left when there is no data sector to
leave. -/
theorem Wf.failsClean (h : Wf s noHold) {name : Name} {size : Int} {buf : List Byte}
    (hc : size < 0 ∨ bytesToSectors size.toNat = 0 ∨ s.NoRoom size.toNat) : FailsClean s name size buf := by
  have hl := h.layout
  intro s' he
  by_cases hneg : size < 0
  · obtain ⟨-, -, hcalm, hmap, -⟩ := (exits_filesysCreate_neg h name hneg buf).post he
    exact hcalm.untouched hl hmap
  · obtain ⟨n, rfl⟩ := Int.eq_ofNat_of_zero_le (Int.not_lt.mp hneg)
    rw [Int.toNat_natCast] at hc
    obtain ⟨-, ht, -, -, hcreated⟩ := (ok_filesysCreate h name n buf).post he
    cases hcreated with
    | unchanged hmap hroot _ => exact ht.untouched hl hmap hroot
    | leaked x st hscan hdata hmap hroot _ =>
      refine ht.untouched hl ?_ hroot
      rcases hc with hc | hc | hc | ⟨y, hy, hno⟩
      · exact absurd hc hneg
      · rw [hmap, hc]
        funext i
        rw [bitmapSetMultiple_apply, if_neg (by omega)]
      · rw [hscan] at hc
        cases hc
      · rw [hscan] at hy
        cases hy
        rw [hdata] at hno
        cases hno

/-- **When a failed `filesys_create` leaves no trace.** If allocations succeed:
the size is negative, the file has no data sectors, there is no room, or the
name can be added so that the call does not fail. Whichever allocations fail,
the first three are enough. -/
theorem failed_create_atomic_iff (h : Wf s noHold) (name : Name) (size : Int) (buf : List Byte) :
    (s.mem = [] → (FailsClean s name size buf ↔
      size < 0 ∨ bytesToSectors size.toNat = 0 ∨ s.NoRoom size.toNat ∨ s.CanName name)) ∧
    (size < 0 ∨ bytesToSectors size.toNat = 0 ∨ s.NoRoom size.toNat → FailsClean s name size buf) := by
  refine ⟨fun hm => ⟨fun hclean => ?_, fun hc => ?_⟩, h.failsClean⟩
  · by_contra hno
    push Not at hno
    obtain ⟨hsize, hcnt, hroom, hname⟩ := hno
    obtain ⟨n, rfl⟩ := Int.eq_ofNat_of_zero_le hsize
    rw [Int.toNat_natCast] at hcnt hroom
    obtain ⟨ok, s', he, -, -, -, -, hcreated⟩ := ok_filesysCreate h name n buf
    cases hcreated with
    | unchanged _ _ hno => exact hroom (hno hm)
    | made x st j _ _ hj _ _ _ hvalid hcan => exact hname ⟨hvalid, (hcan hm).2, j, hj, (hcan hm).1⟩
    | leaked x st hscan hdata hmap _ _ =>
      -- the first sector of the data was free and is now marked
      have hfree : s.freeMap st = false := by
        have := (bitmapScan_some hdata).2 st (Nat.le_refl st) (by omega)
        rw [bitmapSetMultiple_apply] at this
        split at this
        next => cases this
        next => exact this
      refine bitmapSetMultiple_ne hcnt hfree ?_
      rw [← hmap]
      exact (hclean s' he).freeMap
  · rcases hc with hc | hc | hc | hc
    · exact h.failsClean (.inl hc)
    · exact h.failsClean (.inr (.inl hc))
    · exact h.failsClean (.inr (.inr hc))
    · intro s' he
      by_cases hneg : size < 0
      · exact h.failsClean (.inl hneg) s' he
      · obtain ⟨n, rfl⟩ := Int.eq_ofNat_of_zero_le (Int.not_lt.mp hneg)
        obtain ⟨-, ht, -, -, hcreated⟩ := (ok_filesysCreate h name n buf).post he
        cases hcreated with
        | unchanged hmap hroot _ => exact ht.untouched h.layout hmap hroot
        | leaked x st _ _ _ _ hno => exact absurd hc (hno hm)

/-- A file of no bytes cannot be made under an empty name; nothing is left. -/
theorem failed_create_atomic_iff_empty : ∃ s, Booted [] s ∧ Wf s noHold ∧ s.mem = [] ∧
    FailsClean s ⟨[], by decide⟩ 0 [] := by
  obtain ⟨s, -, hboot, -⟩ := tinyDevice_create
  obtain ⟨hw, -, hm⟩ := hboot.wf
  exact ⟨s, hboot, hw, hm rfl, ((failed_create_atomic_iff hw _ 0 []).1 (hm rfl)).2 (.inr (.inl (by decide)))⟩

/-- A file of one byte under an empty name: the call fails, and sector 5 stays
marked. -/
theorem failed_create_leaks : ∃ s s', Booted [] s ∧ filesysCreate ⟨[], by decide⟩ 1 [] s = .ok (false, s') ∧
    s.freeMap 5 = false ∧ s'.freeMap 5 = true := by
  have h : check (filesysInit (fun _ => false) true) tinyDevice (fun _ s =>
      (!s.freeMap 5) && check (filesysCreate ⟨[], by decide⟩ 1 []) s fun ok s' => (!ok) && s'.freeMap 5) = true := by
    decide +kernel
  obtain ⟨_, s, hs, hc⟩ := ok_of_check h
  rw [Bool.and_eq_true, Bool.not_eq_true'] at hc
  obtain ⟨h5, hc⟩ := hc
  obtain ⟨ok, s', hs', hc⟩ := ok_of_check hc
  rw [Bool.and_eq_true, Bool.not_eq_true'] at hc
  obtain ⟨rfl, h5'⟩ := hc
  exact ⟨s, s', .format (by decide) hs, hs', h5, h5'⟩

end Pintos.Fs
