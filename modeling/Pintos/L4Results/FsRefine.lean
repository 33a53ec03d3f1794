import Pintos.L4Results.FileSystem

/-!
# The file system as names, byte arrays and handles

`Abs` is what the file system is for: names stand for files, a file is an
array of bytes of fixed length, and a handle is a file with a position.
`Abs.Step` are the calls on it. `Sim` relates a state of the code to one of
`Abs`: a file is the inode sector it is stored in, the names are those of the
directory entries in use, the handles those of open files. Allocations
succeed throughout (`mem = []`).

* `sim_op`: one call of the code is one abstract call.
* `file_system_refines`: so is every sequence of calls.
-/
namespace Pintos.Fs

open Pintos.Core Function List

/-! ## The abstract file system -/

structure Abs where
  names : Name → Option Nat
  data : Nat → List Byte
  handles : Nat → Option (Nat × Nat)

namespace Abs

def empty : Abs := ⟨fun _ => none, fun _ => [], fun _ => none⟩

/-- A name or a handle stands for file `x`. -/
def Refers (a : Abs) (x : Nat) : Prop := (∃ name, a.names name = some x) ∨ ∃ g pos, a.handles g = some (x, pos)

/-- The directory has no room. -/
def Full (a : Abs) : Prop := dirEntries ≤ {name | (a.names name).isSome = true}.ncard

def setHandle (a : Abs) (g : Nat) (h : Option (Nat × Nat)) : Abs := { a with handles := update a.handles g h }

def setData (a : Abs) (x : Nat) (bs : List Byte) : Abs := { a with data := update a.data x bs }

def setName (a : Abs) (name : Name) (x : Option Nat) : Abs := { a with names := update a.names name x }

/-- A call on the abstract file system. `noRoom` says that the device has no
room for a file that is to be created. -/
inductive Step (noRoom : Prop) (a : Abs) : Op → Ret → Abs → Prop
  | create (name : Name) (n : Nat) (e : List Byte) (x : Nat) (hvalid : name.Valid) (hnew : a.names name = none)
      (hx : ¬ a.Refers x) :
      Step noRoom a (.create name n e) (.bool true) ((a.setName name (some x)).setData x (replicate n 0))
  | refuse (name : Name) (n : Nat) (e : List Byte)
      (h : ¬ name.Valid ∨ a.names name ≠ none ∨ a.Full ∨ noRoom) : Step noRoom a (.create name n e) (.bool false) a
  | opened (name : Name) (x g : Nat) (hx : a.names name = some x) (hg : a.handles g = none) :
      Step noRoom a (.open name) (.handle (some g)) (a.setHandle g (some (x, 0)))
  | absent (name : Name) (h : a.names name = none) : Step noRoom a (.open name) (.handle none) a
  | remove (name : Name) (x : Nat) (hx : a.names name = some x) :
      Step noRoom a (.remove name) (.bool true) (a.setName name none)
  | removeAbsent (name : Name) (h : a.names name = none) : Step noRoom a (.remove name) (.bool false) a
  | reopen (g x pos k : Nat) (hg : a.handles g = some (x, pos)) (hk : a.handles k = none) :
      Step noRoom a (.reopen g) (.handle (some k)) (a.setHandle k (some (x, 0)))
  | close (g x pos : Nat) (hg : a.handles g = some (x, pos)) : Step noRoom a (.close g) .unit (a.setHandle g none)
  | read (g x pos : Nat) (size : Int) (bs : List Byte) (hg : a.handles g = some (x, pos))
      (hbs : bs = ((a.data x).drop pos).take size.toNat) :
      Step noRoom a (.read g size) (.bytes bs) (a.setHandle g (some (x, pos + bs.length)))
  | readAt (g x pos : Nat) (size : Int) (ofs : Nat) (hg : a.handles g = some (x, pos)) :
      Step noRoom a (.readAt g size ofs) (.bytes (((a.data x).drop ofs).take size.toNat)) a
  | write (g x pos : Nat) (bs : List Byte) (k : Nat) (hg : a.handles g = some (x, pos))
      (hk : k = min bs.length ((a.data x).length - pos)) :
      Step noRoom a (.write g bs) (.count k)
        ((a.setData x (overwrite (a.data x) pos bs)).setHandle g (some (x, pos + k)))
  | writeAt (g x pos : Nat) (bs : List Byte) (ofs : Nat) (hg : a.handles g = some (x, pos)) :
      Step noRoom a (.writeAt g bs ofs) (.count (min bs.length ((a.data x).length - ofs)))
        (a.setData x (overwrite (a.data x) ofs bs))
  | seek (g x pos k : Nat) (hg : a.handles g = some (x, pos)) :
      Step noRoom a (.seek g k) .unit (a.setHandle g (some (x, k)))

end Abs

/-- The calls of `Abs.Step`: those without the denial of writes, with sizes,
offsets and positions that are not negative. -/
def Op.InRange : Op → Prop
  | .create _ size _ => 0 ≤ size
  | .readAt _ _ ofs | .writeAt _ _ ofs => 0 ≤ ofs
  | .seek _ pos => 0 ≤ pos
  | .denyWrite _ | .allowWrite _ => False
  | _ => True

/-- The size of a file that is to be created. -/
def Op.size : Op → Nat
  | .create _ size _ => size.toNat
  | _ => 0

/-! ## Bytes -/

/-- What does not fit is not written. -/
theorem overwrite_take (old : List Byte) (ofs : Nat) (bs : List Byte) :
    overwrite old ofs (bs.take (min bs.length (old.length - ofs))) = overwrite old ofs bs := by
  unfold overwrite
  refine map_congr_left fun k hk => ?_
  rw [mem_range] at hk
  rw [length_take]
  by_cases h : ofs ≤ k ∧ k < ofs + bs.length
  · rw [if_pos h, if_pos (by omega), getD_eq_getElem?_getD, getD_eq_getElem?_getD,
      getElem?_take_of_lt (by omega)]
  · rw [if_neg h, if_neg (by omega)]

/-- A read is cut short at the end of the file. -/
theorem readBytes_cut (disk : Nat → Block) (start ofs n len : Nat) :
    readBytes disk start ofs (min n (len - ofs)) = ((readBytes disk start 0 len).drop ofs).take n := by
  refine ext_getElem (by simp) fun j h1 h2 => ?_
  simp only [readBytes, getElem_map, getElem_range, getElem_take, getElem_drop, Nat.zero_add]

/-! ## The relation -/

/-- The handles that have been handed out. -/
def St.handles (s : St) (g : Nat) : Option (Nat × Nat) := if s.freeMapFile = some g then none else s.view g

structure Sim (s : St) (a : Abs) : Prop where
  wf : Wf s noHold
  mem : s.mem = []
  allow : ∀ g f, s.files g = some f → f.denyWrite = false
  valid : ∀ k < dirEntries, (s.slot k).inUse = true → ∃ name : Name, name.Valid ∧ s.Has name k
  distinct : ∀ name j k, j < dirEntries → k < dirEntries → s.Has name j → s.Has name k → j = k
  names : ∀ name x, a.names name = some x ↔ ∃ k < dirEntries, s.Has name k ∧ (s.slot k).inodeSector = x
  handles : a.handles = s.handles
  data : ∀ x, a.Refers x → a.data x = s.content x

variable {s s' : St} {a : Abs} {op : Op}

namespace Sim

variable (h : Sim s a)
include h

theorem not_denied (x : Nat) : ¬ s.Denied x := by
  rintro ⟨g, f, i, hf, hd, -, -⟩
  rw [h.allow g f hf] at hd
  cases hd

theorem names_none {name : Name} : a.names name = none ↔ ∀ k < dirEntries, ¬ s.Has name k := by
  rw [Option.eq_none_iff_forall_ne_some]
  constructor
  · exact fun hno k hk hhas => hno _ ((h.names name _).mpr ⟨k, hk, hhas, rfl⟩)
  · rintro hno x hx
    obtain ⟨k, hk, hhas, -⟩ := (h.names name x).mp hx
    exact hno k hk hhas

/-- An open handle, seen from both sides. -/
theorem handle {g : Nat} (hg : s.Handle g) : ∃ f i, s.files g = some f ∧ s.freeMapFile ≠ some g ∧
    s.inodes f.inode = some i ∧ i.sector ≠ rootDirSector ∧ i.sector ≠ freeMapSector ∧
    a.handles g = some (i.sector, f.pos) := by
  obtain ⟨f, hf⟩ := Option.isSome_iff_exists.mp hg.1
  obtain ⟨i, hi, hroot, h0⟩ := h.wf.inode_of_handle hf hg.2
  refine ⟨f, i, hf, hg.2, hi, hroot, h0, ?_⟩
  rw [h.handles, St.handles, if_neg hg.2, St.view_eq_some hf hi]

/-- Files that are referred to are live, and neither the map's nor the root
directory. -/
theorem live {x : Nat} (hx : a.Refers x) : x ∈ s.live ∧ x ≠ freeMapSector ∧ x ≠ rootDirSector := by
  rcases hx with ⟨name, hn⟩ | ⟨g, pos, hg⟩
  · obtain ⟨k, hk, hhas, rfl⟩ := (h.names name x).mp hn
    have hnamed := hhas.named hk
    exact ⟨St.named_mem hnamed, h.wf.layout.named _ hnamed⟩
  · rw [h.handles, St.handles] at hg
    split at hg
    next => cases hg
    next hmap =>
      unfold St.view at hg
      obtain ⟨f, hf, hg⟩ := Option.bind_eq_some_iff.mp hg
      obtain ⟨i, hi, he⟩ := Option.map_eq_some_iff.mp hg
      cases he
      obtain ⟨j, hj, hroot, h0⟩ := h.wf.inode_of_handle hf hmap
      rw [hi] at hj
      cases hj
      exact ⟨St.open_mem hi, h0, hroot⟩

/-- A file keeps its bytes unless the call writes to it. -/
theorem content_eq (hstep : Stepped op s s') {x : Nat} (hx : a.Refers x) (hw : ¬ op.Writes s x) :
    s'.content x = a.data x := by
  obtain ⟨hlive, h0, h1⟩ := h.live hx
  rw [h.data x hx]
  exact (Fs.content_eq (h.wf.layout.onDevice x hlive) (hstep.keep x hlive h0 h1 hw)).2

/-- A call that leaves the directory alone. -/
theorem step (hstep : Stepped op s s') (hslot : ∀ k < dirEntries, s'.slot k = s.slot k)
    (hallow : ∀ g f, s'.files g = some f → f.denyWrite = false) {H : Nat → Option (Nat × Nat)} {D : Nat → List Byte}
    (hH : H = s'.handles) (href : ∀ g x pos, H g = some (x, pos) → a.Refers x)
    (hD : ∀ x, a.Refers x → D x = s'.content x) : Sim s' ⟨a.names, D, H⟩ := by
  have hhas : ∀ name, ∀ k < dirEntries, s'.Has name k ↔ s.Has name k := fun name k hk => by
    simp only [St.Has, hslot k hk]
  exact {
    wf := hstep.wf
    mem := hstep.mem h.mem
    allow := hallow
    valid := fun k hk hu => by
      rw [hslot k hk] at hu
      obtain ⟨name, hv, hn⟩ := h.valid k hk hu
      exact ⟨name, hv, (hhas name k hk).mpr hn⟩
    distinct := fun name j k hj hk h1 h2 =>
      h.distinct name j k hj hk ((hhas name j hj).mp h1) ((hhas name k hk).mp h2)
    names := fun name x => by
      rw [h.names name x]
      refine exists_congr fun k => and_congr_right fun hk => ?_
      rw [hhas name k hk, hslot k hk]
    handles := hH
    data := fun x hx => by
      refine hD x ?_
      rcases hx with hx | ⟨g, pos, hg⟩
      · exact .inl hx
      · exact href g x pos hg }

/-- A call that changes handles only. -/
theorem step_handles (hstep : Stepped op s s') (hop : op.target = none) (hslot : ∀ k < dirEntries, s'.slot k = s.slot k)
    (hallow : ∀ g f, s'.files g = some f → f.denyWrite = false) {H : Nat → Option (Nat × Nat)}
    (hH : H = s'.handles) (href : ∀ g x pos, H g = some (x, pos) → a.Refers x) : Sim s' ⟨a.names, a.data, H⟩ := by
  refine h.step hstep hslot hallow hH href fun x hx => (h.content_eq hstep hx ?_).symm
  rintro ⟨g, pos, hg, -⟩
  rw [hop] at hg
  cases hg

theorem handles_eq (hfile : s'.freeMapFile = s.freeMapFile) (hview : s'.view = s.view) : a.handles = s'.handles := by
  rw [h.handles]
  funext g
  rw [St.handles, St.handles, hfile, hview]

theorem handles_update {g : Nat} (hg : s.freeMapFile ≠ some g) (hfile : s'.freeMapFile = s.freeMapFile)
    {v : Option (Nat × Nat)} (hview : s'.view = update s.view g v) :
    update a.handles g v = s'.handles := by
  rw [h.handles]
  funext k
  unfold St.handles
  rw [hfile, hview]
  by_cases hk : k = g
  · rw [hk, update_self, update_self, if_neg hg]
  · rw [update_of_ne hk, update_of_ne hk]

end Sim

/-- Handles that are there refer to files. -/
theorem Abs.refers_of_update {g : Nat} {v : Option (Nat × Nat)} (hv : ∀ x pos, v = some (x, pos) → a.Refers x)
    {k x pos : Nat} (hk : update a.handles g v k = some (x, pos)) : a.Refers x := by
  by_cases hkg : k = g
  · rw [hkg, update_self] at hk
    exact hv x pos hk
  · rw [update_of_ne hkg] at hk
    exact .inr ⟨k, pos, hk⟩

theorem allow_update {files : Nat → Option File} (h : ∀ g f, files g = some f → f.denyWrite = false) {g : Nat}
    {o : Option File} (ho : ∀ f, o = some f → f.denyWrite = false) {k : Nat} {f : File}
    (hk : update files g o k = some f) : f.denyWrite = false := by
  by_cases hkg : k = g
  · rw [hkg, update_self] at hk
    exact ho f hk
  · rw [update_of_ne hkg] at hk
    exact h k f hk

/-! ## One call -/

/-- The call returns, with a result of the abstract file system. -/
def Simulates (s : St) (a : Abs) (op : Op) : Prop :=
  ∃ r s' a', op.code s = .ok (r, s') ∧ a.Step (s.NoRoom op.size) op r a' ∧ Sim s' a'

theorem stepped_of (op : Op) (h : Sim s a) (hv : op.Valid s) {r : Ret} (he : op.code s = .ok (r, s')) :
    Stepped op s s' := (exits_op h.wf hv).post he

section
variable {g : Nat} (h : Sim s a)
include h

theorem sim_reopen (hg : s.Handle g) : Simulates s a (.reopen g) := by
  obtain ⟨f, i, hf, hmap, hi, -, -, hag⟩ := h.handle hg
  obtain ⟨r, s', he, -, hc, hr⟩ := ok_fileReopen h.wf hf hmap
  have hcode := map_eq_ok he Ret.handle
  have hstep := stepped_of (.reopen g) h (fun k hk => by cases hk; exact hg) hcode
  cases r with
  | none => exact absurd h.mem hr.1
  | some k =>
    obtain ⟨hnone, hk, hview, hfiles⟩ := hr
    have hkm : s.freeMapFile ≠ some k := by rw [← hc.mapFile]; exact hk.2
    have hak : a.handles k = none := by rw [h.handles, St.handles, if_neg hkm, hnone]
    rw [St.view_eq_some hf hi] at hview
    refine ⟨_, s', _, hcode, .reopen g i.sector f.pos k hag hak, ?_⟩
    refine h.step_handles hstep rfl (fun k hk => hc.slot_eq h.wf.layout hk) (fun k' f' hf' => ?_)
      (h.handles_update hkm hc.mapFile hview) fun k' x pos hk' => Abs.refers_of_update (fun x pos hv => ?_) hk'
    · rw [hfiles] at hf'
      exact allow_update h.allow (fun f hf => by cases hf; rfl) hf'
    · cases hv
      exact .inr ⟨g, _, hag⟩

theorem sim_close (hg : s.Handle g) : Simulates s a (.close g) := by
  obtain ⟨f, i, hf, hmap, hi, -, -, hag⟩ := h.handle hg
  obtain ⟨_, s', he, -, hc, hview, hfiles⟩ := ok_fileClose h.wf hf hmap
  have hcode := map_eq_ok he fun _ => Ret.unit
  have hstep := stepped_of (.close g) h (fun k hk => by cases hk; exact hg) hcode
  refine ⟨_, s', _, hcode, .close g i.sector f.pos hag, ?_⟩
  refine h.step_handles hstep rfl (fun k hk => hc.slot_eq h.wf.layout hk) (fun k' f' hf' => ?_)
    (h.handles_update hmap hc.mapFile hview) fun k' x pos hk' => Abs.refers_of_update (fun x pos hv => by cases hv) hk'
  rw [hfiles] at hf'
  exact allow_update h.allow (fun f hf => by cases hf) hf'

theorem sim_seek (hg : s.Handle g) (pos : Nat) : Simulates s a (.seek g pos) := by
  obtain ⟨f, i, hf, hmap, hi, -, -, hag⟩ := h.handle hg
  obtain ⟨_, s', he, rfl, -, hview⟩ := ok_fileSeek h.wf hf hmap hi (Int.natCast_nonneg pos)
  have hcode := map_eq_ok he fun _ => Ret.unit
  have hstep := stepped_of (.seek g pos) h (fun k hk => by cases hk; exact hg) hcode
  refine ⟨_, _, _, hcode, .seek g i.sector f.pos pos hag, ?_⟩
  refine h.step_handles hstep rfl (fun k _ => rfl) (fun k' f' hf' => ?_) (h.handles_update hmap hstep.mapFile hview)
    fun k' x pos hk' => Abs.refers_of_update (fun x pos hv => ?_) hk'
  · exact allow_update h.allow (fun f' hf' => by cases hf'; exact h.allow g f hf) hf'
  · cases hv
    exact .inr ⟨g, _, hag⟩

/-- The bytes a read returns. -/
theorem read_eq {i : Inode} {p : Nat} (hi : s.inodes p = some i) (hx : a.Refers i.sector) (ofs n : Nat) :
    readBytes s.disk i.data.start ofs (min n (i.data.length - ofs)) = ((a.data i.sector).drop ofs).take n := by
  rw [h.data _ hx, h.wf.layout.data p i hi, readBytes_cut]
  rfl

theorem sim_read (hg : s.Handle g) (size : Int) : Simulates s a (.read g size) := by
  obtain ⟨f, i, hf, hmap, hi, -, -, hag⟩ := h.handle hg
  have hx : a.Refers i.sector := .inr ⟨g, _, hag⟩
  obtain ⟨bs, s', he, k, m', hbs, hs', hu, -, hview⟩ := ok_fileRead h.wf hf hmap hi size
  have hk := (hu.full h.mem).1
  have hlen : bs.length = k := by rw [hbs, length_readBytes]
  have hcode := map_eq_ok he Ret.bytes
  have hstep := stepped_of (.read g size) h (fun k hk => by cases hk; exact hg) hcode
  rw [hk, read_eq h hi hx] at hbs
  refine ⟨_, s', _, hcode, .read g i.sector f.pos size bs hag hbs, ?_⟩
  rw [← hlen] at hview
  refine h.step_handles hstep rfl (fun k _ => by rw [hs']; rfl) (fun k' f' hf' => ?_)
    (h.handles_update hmap hstep.mapFile hview) fun k' x pos hk' => Abs.refers_of_update (fun x pos hv => ?_) hk'
  · rw [hs'] at hf'
    exact allow_update h.allow (fun f' hf' => by cases hf'; exact h.allow g f hf) hf'
  · cases hv
    exact hx

theorem sim_readAt (hg : s.Handle g) (size : Int) (ofs : Nat) : Simulates s a (.readAt g size ofs) := by
  obtain ⟨f, i, hf, hmap, hi, -, -, hag⟩ := h.handle hg
  have hx : a.Refers i.sector := .inr ⟨g, _, hag⟩
  obtain ⟨bs, s', he, k, m', hbs, rfl, hu⟩ :=
    ok_fileReadAt h.wf hf hi size ofs fun _ => Int.natCast_nonneg ofs
  rw [Int.toNat_natCast] at hbs hu
  have hcode := map_eq_ok he Ret.bytes
  have hstep := stepped_of (.readAt g size ofs) h (fun k hk => by cases hk; exact hg) hcode
  rw [(hu.full h.mem).1, read_eq h hi hx] at hbs
  subst hbs
  refine ⟨_, _, _, hcode, .readAt g i.sector f.pos size ofs hag, ?_⟩
  exact h.step_handles hstep rfl (fun k _ => rfl) h.allow (h.handles_eq rfl rfl) fun k x pos hk => .inr ⟨k, pos, hk⟩

/-- What a write leaves in the files. -/
theorem write_data {f : File} {i : Inode} (hf : s.files g = some f) (hi : s.inodes f.inode = some i)
    (hag : a.handles g = some (i.sector, f.pos)) (hstep : Stepped op s s') (hop : op.target = some g)
    {bs : List Byte} {ofs k : Nat} {m' : List Bool} (hwr : Wrote s i bs ofs k m') {disk : Nat → Block}
    (hd : s'.disk = disk) (hdisk : disk = writeBytes s.disk (s.dinode i.sector).start ofs (bs.take k))
    (hout : ∀ z, ¬ (s.dinode i.sector).Data z → disk z = s.disk z) :
    k = min bs.length ((a.data i.sector).length - ofs) ∧ ∀ x, a.Refers x →
      update a.data i.sector (overwrite (a.data i.sector) ofs bs) x = s'.content x := by
  have hx : a.Refers i.sector := .inr ⟨g, _, hag⟩
  have hcnt : i.denyWriteCnt = 0 := by
    by_contra hne
    exact h.not_denied _ ((h.wf.denied_iff hi).mpr hne)
  have hlen : (a.data i.sector).length = i.data.length := by
    rw [h.data _ hx, St.content, length_readBytes, h.wf.layout.data _ i hi]
  have hk : k = min bs.length ((a.data i.sector).length - ofs) := by
    rw [hlen]
    exact ((hwr.upto hcnt).full h.mem).1
  refine ⟨hk, fun x hxr => ?_⟩
  by_cases hxi : x = i.sector
  · subst hxi
    rw [update_self, content_write h.wf.layout (St.open_mem hi) hd hdisk hout, ← h.data _ hx, hk, overwrite_take]
  · rw [update_of_ne hxi]
    refine (h.content_eq hstep hxr ?_).symm
    rintro ⟨g', pos, hg', hview, -⟩
    rw [hop] at hg'
    cases hg'
    rw [St.view_eq_some hf hi] at hview
    cases hview
    exact hxi rfl

/-- A write to another file leaves the directory alone. -/
theorem write_slot {i : Inode} {p : Nat} (hi : s.inodes p = some i) (hroot : i.sector ≠ rootDirSector)
    {disk : Nat → Block} (hd : s'.disk = disk) (hout : ∀ z, ¬ (s.dinode i.sector).Data z → disk z = s.disk z) :
    ∀ k < dirEntries, s'.slot k = s.slot k := by
  have hl := h.wf.layout
  intro k hk
  refine hl.slot_eq ?_ (fun z hz => ?_) hk
  · rw [hd]
    exact hout _ (hl.not_data (St.open_mem hi) s.root_mem)
  · rw [hd]
    exact hout z fun hz' => hl.data_disjoint s.root_mem (St.open_mem hi) hroot.symm hz hz'

theorem sim_write (hg : s.Handle g) (bs : List Byte) : Simulates s a (.write g bs) := by
  obtain ⟨f, i, hf, hmap, hi, hroot, h0, hag⟩ := h.handle hg
  have hx : a.Refers i.sector := .inr ⟨g, _, hag⟩
  obtain ⟨k, s', he, disk, m', hs', hdisk, hwr, -, hview, hout⟩ := ok_fileWrite h.wf hf hmap hi hroot bs
  have hcode := map_eq_ok he Ret.count
  have hstep := stepped_of (.write g bs) h (fun k hk => by cases hk; exact hg) hcode
  have hd : s'.disk = disk := by rw [hs']; rfl
  obtain ⟨hk, hdata⟩ := write_data h hf hi hag hstep rfl hwr hd hdisk hout
  refine ⟨_, s', _, hcode, .write g i.sector f.pos bs k hag hk, ?_⟩
  refine h.step hstep (write_slot h hi hroot hd hout) (fun k' f' hf' => ?_)
    (h.handles_update hmap hstep.mapFile hview) (fun k' x pos hk' => Abs.refers_of_update (fun x pos hv => ?_) hk')
    hdata
  · rw [hs'] at hf'
    exact allow_update h.allow (fun f' hf' => by cases hf'; exact h.allow g f hf) hf'
  · cases hv
    exact hx

theorem sim_writeAt (hg : s.Handle g) (bs : List Byte) (ofs : Nat) : Simulates s a (.writeAt g bs ofs) := by
  obtain ⟨f, i, hf, hmap, hi, hroot, h0, hag⟩ := h.handle hg
  obtain ⟨k, s', he, disk, m', hs', hdisk, hwr, -, hout⟩ :=
    (ok_fileWriteAt hf).mpr (ok_inodeWriteAt_handle h.wf hi hroot fun _ => Int.natCast_nonneg ofs)
  rw [Int.toNat_natCast] at hdisk hwr
  have hcode := map_eq_ok he Ret.count
  have hstep := stepped_of (.writeAt g bs ofs) h (fun k hk => by cases hk; exact hg) hcode
  have hd : s'.disk = disk := by rw [hs']; rfl
  obtain ⟨hk, hdata⟩ := write_data h hf hi hag hstep rfl hwr hd hdisk hout
  subst hk
  refine ⟨_, s', _, hcode, .writeAt g i.sector f.pos bs ofs hag, ?_⟩
  refine h.step hstep (write_slot h hi hroot hd hout) (fun k' f' hf' => ?_) (h.handles_eq hstep.mapFile ?_)
    (fun k x pos hk => .inr ⟨k, pos, hk⟩) hdata
  · rw [hs'] at hf'
    exact h.allow k' f' hf'
  · rw [hs']
    rfl

theorem sim_open (name : Name) : Simulates s a (.open name) := by
  obtain ⟨found, s', he, -, hc, hres⟩ := ok_filesysOpen h.wf name
  have hcode := map_eq_ok he Ret.handle
  have hstep := stepped_of (.open name) h (fun k hk => by cases hk) hcode
  have hslot : ∀ k < dirEntries, s'.slot k = s.slot k := fun k hk => hc.slot_eq h.wf.layout hk
  cases found with
  | none =>
    obtain ⟨hview, hfiles, hno⟩ := hres
    refine ⟨_, s', _, hcode, .absent name (h.names_none.mpr (hno h.mem)), ?_⟩
    exact h.step_handles hstep rfl hslot (by rw [hfiles]; exact h.allow) (h.handles_eq hc.mapFile hview)
      fun k x pos hk => .inr ⟨k, pos, hk⟩
  | some g =>
    obtain ⟨hnone, hk, j, hj, hhas, hview, q, hfiles⟩ := hres
    have hkm : s.freeMapFile ≠ some g := by rw [← hc.mapFile]; exact hk.2
    have hag : a.handles g = none := by rw [h.handles, St.handles, if_neg hkm, hnone]
    have hname : a.names name = some (s.slot j).inodeSector := (h.names _ _).mpr ⟨j, hj, hhas, rfl⟩
    refine ⟨_, s', _, hcode, .opened name _ g hname hag, ?_⟩
    refine h.step_handles hstep rfl hslot (fun k' f' hf' => ?_) (h.handles_update hkm hc.mapFile hview)
      fun k' x pos hk' => Abs.refers_of_update (fun x pos hv => ?_) hk'
    · rw [hfiles] at hf'
      exact allow_update h.allow (fun f hf => by cases hf; rfl) hf'
    · cases hv
      exact .inl ⟨name, hname⟩

theorem sim_remove (name : Name) : Simulates s a (.remove name) := by
  obtain ⟨ok, s', he, -, hfiles, hview, ht, -, hres⟩ := ok_filesysRemove h.wf name
  have hcode := map_eq_ok he Ret.bool
  have hstep := stepped_of (.remove name) h (fun k hk => by cases hk) hcode
  have hallow : ∀ g f, s'.files g = some f → f.denyWrite = false := by rw [hfiles]; exact h.allow
  cases ok with
  | false =>
    obtain ⟨hslot, hno⟩ := hres
    refine ⟨_, s', _, hcode, .removeAbsent name (h.names_none.mpr (hno h.mem)), ?_⟩
    exact h.step_handles hstep rfl hslot hallow (h.handles_eq ht.mapFile hview) fun k x pos hk => .inr ⟨k, pos, hk⟩
  | true =>
    obtain ⟨j, hj, hhas, hfree, hslot, -⟩ := hres
    refine ⟨_, s', _, hcode, .remove name _ ((h.names _ _).mpr ⟨j, hj, hhas, rfl⟩), ?_⟩
    -- the entries that are left are those of other names
    have hleft : ∀ n k, k < dirEntries → (s'.Has n k ↔ k ≠ j ∧ s.Has n k) := by
      intro n k hk
      by_cases hkj : k = j
      · subst hkj
        refine ⟨fun hn => ?_, fun hn => absurd rfl hn.1⟩
        rw [hn.1] at hfree
        cases hfree
      · simp only [St.Has, hslot k hk hkj, ne_eq, hkj, not_false_eq_true, true_and]
    exact {
      wf := hstep.wf
      mem := hstep.mem h.mem
      allow := hallow
      valid := fun k hk hu => by
        by_cases hkj : k = j
        · rw [hkj, hfree] at hu
          cases hu
        · rw [hslot k hk hkj] at hu
          obtain ⟨n, hv, hn⟩ := h.valid k hk hu
          exact ⟨n, hv, (hleft n k hk).mpr ⟨hkj, hn⟩⟩
      distinct := fun n i k hi hk h1 h2 =>
        h.distinct n i k hi hk ((hleft n i hi).mp h1).2 ((hleft n k hk).mp h2).2
      names := fun n x => by
        change update a.names name none n = some x ↔ _
        by_cases hn : n = name
        · subst hn
          rw [update_self]
          refine ⟨(fun h => by cases h), ?_⟩
          rintro ⟨k, hk, hhk, -⟩
          obtain ⟨hkj, hhk⟩ := (hleft n k hk).mp hhk
          exact absurd (h.distinct n k j hk hj hhk hhas) hkj
        · rw [update_of_ne hn, h.names n x]
          refine exists_congr fun k => and_congr_right fun hk => ?_
          rw [hleft n k hk]
          constructor
          · rintro ⟨hhk, hx⟩
            have hkj : k ≠ j := by
              rintro rfl
              exact hn (Name.ext (hhk.2.symm.trans hhas.2))
            exact ⟨⟨hkj, hhk⟩, by rw [hslot k hk hkj]; exact hx⟩
          · rintro ⟨⟨hkj, hhk⟩, hx⟩
            rw [hslot k hk hkj] at hx
            exact ⟨hhk, hx⟩
      handles := h.handles_eq ht.mapFile hview
      data := fun x hx => by
        refine (h.content_eq hstep ?_ ?_).symm
        · rcases hx with ⟨n, hn⟩ | hx
          · by_cases hne : n = name
            · have : update a.names name none n = some x := hn
              rw [hne, update_self] at this
              cases this
            · have : update a.names name none n = some x := hn
              rw [update_of_ne hne] at this
              exact .inl ⟨n, this⟩
          · exact .inr hx
        · rintro ⟨_, _, hg, -⟩
          cases hg }

/-- Without a free entry the directory has no room. -/
theorem full_of_used (hused : ∀ k < dirEntries, (s.slot k).inUse = true) : a.Full := by
  choose f hf using fun k : Fin dirEntries => h.valid k k.2 (hused k k.2)
  have hset : {name | (a.names name).isSome = true} = Set.range f := by
    ext n
    simp only [Set.mem_ofPred_eq, Set.mem_range, Option.isSome_iff_exists]
    constructor
    · rintro ⟨x, hx⟩
      obtain ⟨k, hk, hhas, -⟩ := (h.names n x).mp hx
      exact ⟨⟨k, hk⟩, Name.ext ((hf ⟨k, hk⟩).2.2.symm.trans hhas.2)⟩
    · rintro ⟨k, rfl⟩
      exact ⟨_, (h.names _ _).mpr ⟨k, k.2, (hf k).2, rfl⟩⟩
  have hinj : Injective f := fun j k hjk =>
    Fin.ext (h.distinct (f j) j k j.2 k.2 (hf j).2 (hjk ▸ (hf k).2))
  unfold Abs.Full
  rw [hset, ← Set.image_univ, Set.ncard_image_of_injective _ hinj, Set.ncard_univ, Nat.card_fin]

/-- What stands for a sector that was free. -/
theorem not_refers_of_free {x : Nat} (hx : s.freeMap x = false) : ¬ a.Refers x := fun href => by
  obtain ⟨hlive, -, -⟩ := h.live href
  rw [h.wf.layout.used_of_mem hlive (.inl rfl)] at hx
  cases hx

/-- A new entry `j` for a new file `x`. -/
theorem sim_made {name : Name} {n x j : Nat} {e : List Byte} (hstep : Stepped (.create name n e) s s')
    (hallow : ∀ g f, s'.files g = some f → f.denyWrite = false) (hhandles : a.handles = s'.handles)
    (hj : j < dirEntries) (hslot : ∀ k < dirEntries, s'.slot k = if k = j then ⟨x, name.chars, true⟩ else s.slot k)
    (hcontent : s'.content x = replicate n 0) (hvalid : name.Valid) (hfree : (s.slot j).inUse = false)
    (hnot : ∀ k < dirEntries, ¬ s.Has name k) :
    Sim s' ((a.setName name (some x)).setData x (replicate n 0)) := by
  have hnew : s'.slot j = ⟨x, name.chars, true⟩ := by rw [hslot j hj, if_pos rfl]
  have hold : ∀ k < dirEntries, k ≠ j → s'.slot k = s.slot k := fun k hk hne => by rw [hslot k hk, if_neg hne]
  -- an entry is the new one, or one that was there before
  have hhas : ∀ m k, k < dirEntries → (s'.Has m k ↔ (k = j ∧ m = name) ∨ (k ≠ j ∧ s.Has m k)) := by
    intro m k hk
    by_cases hkj : k = j
    · subst hkj
      simp only [St.Has, hnew, true_and, ne_eq, not_true_eq_false, false_and, or_false]
      exact ⟨fun hm => Name.ext hm.symm, fun hm => by rw [hm]⟩
    · simp only [St.Has, hold k hk hkj, hkj, ne_eq, not_false_eq_true, true_and, false_and, false_or]
  have hne : ∀ m k, k < dirEntries → s.Has m k → k ≠ j := by
    rintro m k - hm rfl
    rw [hm.1] at hfree
    cases hfree
  exact {
    wf := hstep.wf
    mem := hstep.mem h.mem
    allow := hallow
    valid := fun k hk hu => by
      by_cases hkj : k = j
      · exact ⟨name, hvalid, (hhas name k hk).mpr (.inl ⟨hkj, rfl⟩)⟩
      · rw [hold k hk hkj] at hu
        obtain ⟨m, hv, hm⟩ := h.valid k hk hu
        exact ⟨m, hv, (hhas m k hk).mpr (.inr ⟨hkj, hm⟩)⟩
    distinct := fun m i k hi hk h1 h2 => by
      rcases (hhas m i hi).mp h1 with ⟨h1, rfl⟩ | ⟨-, h1⟩
      · rcases (hhas m k hk).mp h2 with ⟨h2, -⟩ | ⟨-, h2⟩
        · rw [h1, h2]
        · exact absurd h2 (hnot k hk)
      · rcases (hhas m k hk).mp h2 with ⟨-, rfl⟩ | ⟨-, h2⟩
        · exact absurd h1 (hnot i hi)
        · exact h.distinct m i k hi hk h1 h2
    names := fun m y => by
      change update a.names name (some x) m = some y ↔ _
      by_cases hm : m = name
      · subst hm
        rw [update_self]
        constructor
        · rintro ⟨⟩
          exact ⟨j, hj, (hhas m j hj).mpr (.inl ⟨rfl, rfl⟩), by rw [hnew]⟩
        · rintro ⟨k, hk, hhk, hy⟩
          rcases (hhas m k hk).mp hhk with ⟨rfl, -⟩ | ⟨-, hhk⟩
          · rw [← hy, hnew]
          · exact absurd hhk (hnot k hk)
      · rw [update_of_ne hm, h.names m y]
        refine exists_congr fun k => and_congr_right fun hk => ?_
        rw [hhas m k hk]
        constructor
        · rintro ⟨hhk, hy⟩
          have hkj := hne m k hk hhk
          exact ⟨.inr ⟨hkj, hhk⟩, by rw [hold k hk hkj]; exact hy⟩
        · rintro ⟨⟨-, hmn⟩ | ⟨hkj, hhk⟩, hy⟩
          · exact absurd hmn hm
          · rw [hold k hk hkj] at hy
            exact ⟨hhk, hy⟩
    handles := hhandles
    data := fun y hy => by
      change update a.data x (replicate n 0) y = _
      by_cases hyx : y = x
      · rw [hyx, update_self, hcontent]
      · rw [update_of_ne hyx]
        have hya : a.Refers y := by
          rcases hy with ⟨m, hm⟩ | hy
          · have hm : update a.names name (some x) m = some y := hm
            by_cases hmn : m = name
            · rw [hmn, update_self] at hm
              exact absurd (Option.some.inj hm).symm hyx
            · rw [update_of_ne hmn] at hm
              exact .inl ⟨m, hm⟩
          · exact .inr hy
        refine (h.content_eq hstep hya ?_).symm
        rintro ⟨_, _, hg, -⟩
        cases hg }

theorem sim_create (name : Name) (n : Nat) (e : List Byte) : Simulates s a (.create name n e) := by
  have hl := h.wf.layout
  obtain ⟨ok, s', he, -, ht, hfiles, hview, hcreated⟩ := ok_filesysCreate h.wf name n e
  have hcode := map_eq_ok he Ret.bool
  have hstep := stepped_of (.create name n e) h (fun k hk => by cases hk) hcode
  have hallow : ∀ g f, s'.files g = some f → f.denyWrite = false := by rw [hfiles]; exact h.allow
  -- a call that fails leaves entries and files alone
  have hfail : (∀ z ∈ s.extent rootDirSector, s'.disk z = s.disk z) → Sim s' a := fun hroot =>
    h.step_handles hstep rfl (fun k hk => hl.slot_eq (hroot _ (.inl rfl)) (fun z hz => hroot z (.inr hz)) hk) hallow
      (h.handles_eq ht.mapFile hview) fun k x pos hk => .inr ⟨k, pos, hk⟩
  cases hcreated with
  | unchanged _ hroot hno =>
    exact ⟨_, s', a, hcode, .refuse name n e (.inr (.inr (.inr (hno h.mem)))), hfail hroot⟩
  | leaked x st _ _ _ hroot hno =>
    refine ⟨_, s', a, hcode, .refuse name n e ?_, hfail hroot⟩
    by_cases hvalid : name.Valid
    · by_cases hnew : a.names name = none
      · refine .inr (.inr (.inl (full_of_used h fun k hk => ?_)))
        by_contra hfree
        exact hno h.mem ⟨hvalid, h.names_none.mp hnew, k, hk, Bool.eq_false_of_not_eq_true hfree⟩
      · exact .inr (.inl hnew)
    · exact .inl hvalid
  | made x st j hscan _ hj hslot hdin hcontent hvalid hcan =>
    obtain ⟨hfree, hnot⟩ := hcan h.mem
    have hx : ¬ a.Refers x := not_refers_of_free h ((bitmapScan_some hscan).2 x (Nat.le_refl x) (by omega))
    refine ⟨_, s', _, hcode, .create name n e x hvalid (h.names_none.mpr hnot) hx, ?_⟩
    exact sim_made h hstep hallow (h.handles_eq ht.mapFile hview) hj hslot hcontent hvalid hfree hnot

/-- One call of the code is one call of the abstract file system. -/
theorem sim_op (hop : op.InRange) (hv : op.Valid s) : Simulates s a op := by
  cases op with
  | create name size e =>
    obtain ⟨n, rfl⟩ := Int.eq_ofNat_of_zero_le (show 0 ≤ size from hop)
    exact sim_create h name n e
  | «open» name => exact sim_open h name
  | remove name => exact sim_remove h name
  | reopen g => exact sim_reopen h (hv g rfl)
  | close g => exact sim_close h (hv g rfl)
  | read g size => exact sim_read h (hv g rfl) size
  | write g bs => exact sim_write h (hv g rfl) bs
  | readAt g size ofs =>
    obtain ⟨n, rfl⟩ := Int.eq_ofNat_of_zero_le (show 0 ≤ ofs from hop)
    exact sim_readAt h (hv g rfl) size n
  | writeAt g bs ofs =>
    obtain ⟨n, rfl⟩ := Int.eq_ofNat_of_zero_le (show 0 ≤ ofs from hop)
    exact sim_writeAt h (hv g rfl) bs n
  | seek g pos =>
    obtain ⟨n, rfl⟩ := Int.eq_ofNat_of_zero_le (show 0 ≤ pos from hop)
    exact sim_seek h (hv g rfl) n
  | denyWrite g => exact hop.elim
  | allowWrite g => exact hop.elim

theorem handle_iff : s.Handle g ↔ (a.handles g).isSome = true := by
  constructor
  · intro hg
    obtain ⟨f, i, -, -, -, -, -, hag⟩ := h.handle hg
    rw [hag]
    rfl
  · intro hg
    rw [h.handles, St.handles] at hg
    split at hg
    next => cases hg
    next hmap =>
      refine ⟨?_, hmap⟩
      unfold St.view at hg
      cases hf : s.files g with
      | none =>
        rw [hf] at hg
        cases hg
      | some f => rfl

end

/-! ## Sequences of calls -/

/-- A call, its result, and whether the device had no room for a file of that
size. -/
structure Event where
  op : Op
  ret : Ret
  noRoom : Prop

/-- A sequence of calls of the code. -/
inductive Trace : St → List Event → St → Prop
  | nil (s : St) : Trace s [] s
  | call {s t u : St} {evs : List Event} {op : Op} {r : Ret} (h : Trace s evs t) (hop : op.InRange) (hv : op.Valid t)
      (he : op.code t = .ok (r, u)) : Trace s (evs ++ [⟨op, r, t.NoRoom op.size⟩]) u

/-- A sequence of calls of the abstract file system. -/
inductive Abs.Trace : Abs → List Event → Abs → Prop
  | nil (a : Abs) : Abs.Trace a [] a
  | call {a b c : Abs} {evs : List Event} {ev : Event} (h : Abs.Trace a evs b) (hs : b.Step ev.noRoom ev.op ev.ret c) :
      Abs.Trace a (evs ++ [ev]) c

theorem Trace.sim {t : St} {evs : List Event} (h : Sim s a) (hrun : Trace s evs t) :
    ∃ b, Abs.Trace a evs b ∧ Sim t b := by
  induction hrun with
  | nil => exact ⟨a, .nil a, h⟩
  | call _ hop hv he ih =>
    obtain ⟨b, hab, hb⟩ := ih
    obtain ⟨r', u', c, he', hstep, hc⟩ := sim_op hb hop hv
    rw [he] at he'
    cases he'
    exact ⟨c, hab.call hstep, hc⟩

/-- A device that has just been formatted has no names and no handles. -/
theorem sim_empty (hw : Wf s noHold) (hm : s.mem = []) (hslot : ∀ k < dirEntries, (s.slot k).inUse = false)
    (hh : ∀ g, ¬ s.Handle g) : Sim s .empty := by
  have hhas : ∀ name, ∀ k < dirEntries, ¬ s.Has name k := fun name k hk hn => by
    have := hn.1
    rw [hslot k hk] at this
    cases this
  have hfile : ∀ g f, s.files g = some f → s.freeMapFile = some g := fun g f hf => by
    by_contra hne
    exact hh g ⟨by rw [hf]; rfl, hne⟩
  exact {
    wf := hw
    mem := hm
    allow := fun g f hf => by
      obtain ⟨g', f', -, hg', hf', hd, -⟩ := hw.heap.map
      rw [hfile g f hf] at hg'
      cases hg'
      rw [hf] at hf'
      cases hf'
      exact hd
    valid := fun k hk hu => by rw [hslot k hk] at hu; cases hu
    distinct := fun name j _ hj _ h1 => absurd h1 (hhas name j hj)
    names := fun name x => ⟨nofun, fun ⟨k, hk, hn, _⟩ => absurd hn (hhas name k hk)⟩
    handles := by
      funext g
      unfold St.handles
      split
      next => rfl
      next hne =>
        unfold St.view
        cases hf : s.files g with
        | none => rfl
        | some f => exact absurd (hfile g f hf) hne
    data := fun x hx => by
      rcases hx with ⟨_, hn⟩ | ⟨_, _, hg⟩
      · cases hn
      · cases hg }

/-- **Refinement.** From a formatted device, the results of every sequence of
calls are results of the abstract file system, the open handles are the same,
and the next call returns. -/
theorem file_system_refines {dev : Nat} {disk : Nat → Block} {bits : Nat → Bool} {evs : List Event} {t : St}
    (hdev : dev < maxSectors) (hinit : filesysInit bits true (powerOn dev disk []) = .ok ((), s))
    (hrun : Trace s evs t) :
    ∃ a, Abs.Trace .empty evs a ∧ (∀ g, t.Handle g ↔ (a.handles g).isSome = true) ∧
      ∀ op : Op, op.InRange → op.Valid t → ∃ r u, op.code t = .ok (r, u) := by
  obtain ⟨hw, -, -, hm, hslot, hh⟩ := (exits_format hdev).post hinit
  obtain ⟨a, htrace, ha⟩ := hrun.sim (sim_empty hw (hm rfl) hslot hh)
  refine ⟨a, htrace, fun g => handle_iff ha, fun op hop hv => ?_⟩
  obtain ⟨r, u, -, he, -⟩ := sim_op ha hop hv
  exact ⟨r, u, he⟩

/-- A file of one byte is made, opened as handle 7, removed, written and read
back through the handle. -/
theorem file_system_refines_removed : ∃ s t evs a, filesysInit (fun _ => false) true tinyDevice = .ok ((), s) ∧
    Trace s evs t ∧ Abs.Trace .empty evs a ∧ evs.map Event.ret =
      [.bool true, .handle (some 7), .bool true, .count 1, .bytes [5]] := by
  have h : check (filesysInit (fun _ => false) true) tinyDevice (fun _ s =>
      check (Op.create nameA 1 []).code s fun r₁ s₁ => decide (r₁ = .bool true) &&
      check (Op.open nameA).code s₁ fun r₂ s₂ => decide (r₂ = .handle (some 7)) &&
      check (Op.remove nameA).code s₂ fun r₃ s₃ => decide (r₃ = .bool true ∧ s₃.Handle 7) &&
      check (Op.writeAt 7 [5, 6] 0).code s₃ fun r₄ s₄ => decide (r₄ = .count 1 ∧ s₄.Handle 7) &&
      check (Op.read 7 3).code s₄ fun r₅ _ => decide (r₅ = .bytes [5])) = true := by
    decide +kernel
  obtain ⟨_, s, hs, hc⟩ := ok_of_check h
  obtain ⟨r₁, s₁, h₁, hc⟩ := ok_of_check hc
  rw [Bool.and_eq_true, decide_eq_true_eq] at hc
  obtain ⟨rfl, hc⟩ := hc
  obtain ⟨r₂, s₂, h₂, hc⟩ := ok_of_check hc
  rw [Bool.and_eq_true, decide_eq_true_eq] at hc
  obtain ⟨rfl, hc⟩ := hc
  obtain ⟨r₃, s₃, h₃, hc⟩ := ok_of_check hc
  rw [Bool.and_eq_true, decide_eq_true_eq] at hc
  obtain ⟨⟨rfl, hg₃⟩, hc⟩ := hc
  obtain ⟨r₄, s₄, h₄, hc⟩ := ok_of_check hc
  rw [Bool.and_eq_true, decide_eq_true_eq] at hc
  obtain ⟨⟨rfl, hg₄⟩, hc⟩ := hc
  obtain ⟨r₅, s₅, h₅, hc⟩ := ok_of_check hc
  rw [decide_eq_true_eq] at hc
  subst hc
  have t₁ := (Trace.nil s).call (show (Op.create nameA 1 []).InRange from Int.one_nonneg) (fun g hg => by cases hg) h₁
  have t₂ := t₁.call (show (Op.open nameA).InRange from trivial) (fun g hg => by cases hg) h₂
  have t₃ := t₂.call (show (Op.remove nameA).InRange from trivial) (fun g hg => by cases hg) h₃
  have t₄ := t₃.call (show (Op.writeAt 7 [5, 6] 0).InRange from Int.le_refl 0) (fun g hg => by cases hg; exact hg₃) h₄
  have t₅ := t₄.call (show (Op.read 7 3).InRange from trivial) (fun g hg => by cases hg; exact hg₄) h₅
  obtain ⟨a, ha, -⟩ := file_system_refines (by decide) hs t₅
  exact ⟨s, s₅, _, a, hs, t₅, ha, rfl⟩

/-- A file of a negative size: `inode_create` asserts that there is none. -/
theorem create_negative_panics : ∃ s, Booted [] s ∧ (Op.create nameA (-1) []).code s = .error .length := by
  have h : check (filesysInit (fun _ => false) true) tinyDevice (fun _ s =>
      match (Op.create nameA (-1) []).code s with
      | .error p => decide (p = .length)
      | .ok _ => false) = true := by
    decide +kernel
  obtain ⟨_, s, hs, hc⟩ := ok_of_check h
  refine ⟨s, .format (by decide) hs, ?_⟩
  cases hr : (Op.create nameA (-1) []).code s with
  | ok r =>
    rw [hr] at hc
    cases hc
  | error p =>
    rw [hr] at hc
    rw [of_decide_eq_true hc]

end Pintos.Fs
