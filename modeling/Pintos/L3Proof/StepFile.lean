import Pintos.L3Proof.StepMem

/-!
# Steps of one process: its own record, its page directory, files

An inode that backs a page of an executable has a positive `deny_write_cnt`,
because the process of that page holds the file open with writes denied; so
no write changes what such a page reads from its file.
-/
namespace Pintos.Vm

open Pintos.Core Function

variable {G : Goals} {t u : Tid} {w : W}

/-! ## The record of a process -/

variable {Pr : Tid → Proc} {T : Tid → Option PageTable} {P : PageId → Option Page} {Q P' : Proc}

theorem kept_congr {files : FileId → Option File} {Pr' : Tid → Proc} {g : FileId}
    (h : ∀ t, (Pr' t).fds = (Pr t).fds ∧ (Pr' t).binFile = (Pr t).binFile) :
    Kept files Pr' g ↔ Kept files Pr g := by
  simp only [Kept, (h _).1, (h _).2]

/-- What the mappings of one process owe `MapInv`. -/
structure MapsOk (P : Proc) (es : List PageId) (pages : PageId → Option Page) : Prop where
  live : ∀ m ∈ P.mappings, (P.maps m).isSome
  nodup : P.covered.Nodup
  page : ∀ a ∈ P.covered, ∃ p r, p ∈ es ∧ pages p = some r ∧ r.addr = a ∧ r.isMmap = true

theorem MapInv.at (h : MapInv Pr T P) (u : Tid) : MapsOk (Pr u) (elemsOf (T u)) P :=
  ⟨fun _ hm => h.live hm, h.nodup u, fun _ ha => h.page ha⟩

theorem MapsOk.congr {P : Proc} {es : List PageId} {pages : PageId → Option Page}
    (h : MapsOk P es pages) (h1 : Q.mappings = P.mappings) (h2 : Q.maps = P.maps) :
    MapsOk Q es pages := by
  have hc : Q.covered = P.covered := by simp only [Proc.covered, h1, h2]
  exact ⟨by rw [h1, h2]; exact h.live, by rw [hc]; exact h.nodup, by rw [hc]; exact h.page⟩

theorem MapInv.update (h : MapInv Pr T P) (hu : MapsOk P' (elemsOf (T u)) P) :
    MapInv (update Pr u P') T P where
  live := by
    intro t m hm
    by_cases ht : t = u
    · subst ht; simp only [update_self] at hm ⊢; exact hu.live m hm
    · simp only [update_of_ne ht] at hm ⊢; exact h.live hm
  nodup := by
    intro t
    by_cases ht : t = u
    · subst ht; simpa using hu.nodup
    · simpa [ht] using h.nodup t
  page := by
    intro t a ha
    by_cases ht : t = u
    · subst ht; simp only [update_self] at ha; exact hu.page a ha
    · simp only [update_of_ne ht] at ha; exact h.page ha

/-- The fields of a process record that other invariants speak about. -/
structure ProcOk (G : Goals) (w : W) (u : Tid) (P' : Proc) : Prop where
  status : P'.status ≠ .new
  alive : P'.status.alive → (w.st.procs u).status.alive
  maps : MapsOk P' (w.st.table u) w.st.pages
  stack : G.range → P'.status = .running →
    ∃ p r, p ∈ w.st.table u ∧ w.st.pages p = some r ∧ r.addr = physBase - pgSize ∧ r.isMmap = false

theorem newInv_update {pd : Tid → Option Pagedir}
    (h : NewInv Pr T pd) (hn : P'.status ≠ .new) : NewInv (update Pr u P') T pd := by
  intro t ht
  have : t ≠ u := by rintro rfl; simp [hn] at ht
  simp only [update_of_ne this] at ht ⊢
  exact h t ht

theorem pteInv_update (hi : Inv G w) (ha : P'.status.alive → (w.st.procs u).status.alive) :
    PteInv (update w.st.procs u P') w.st.pagedirs w.st.tables w.st.pages w.aux.givenUp := by
  constructor
  intro t a hal hpr
  refine hi.pte.page ?_ hpr
  by_cases ht : t = u
  · subst ht; exact ha (by simpa using hal)
  · simpa [ht] using hal

theorem rangeInv_update (hi : Inv G w) (h : ProcOk G w u P') (hg : G.range) :
    RangeInv (update w.st.procs u P') w.st.tables w.st.pages := by
  refine ⟨(hi.range hg).range, ?_⟩
  intro t ht
  by_cases htu : t = u
  · subst htu; exact h.stack hg (by simpa using ht)
  · exact (hi.range hg).stack (by simpa [htu] using ht)

/-- A process changes its own record, but not its descriptors and not its
executable. -/
theorem step_proc (hi : Inv G w) (h : ProcOk G w u Q)
    (hfds : Q.fds = (w.st.procs u).fds) (hbin : Q.binFile = (w.st.procs u).binFile)
    (hfile : ∀ m M, m ∈ Q.mappings → Q.maps m = some M →
      ∃ g, M.file = some g ∧ Kept w.st.files w.st.procs g) :
    Moves G u w ⟨w.st.setProc u Q, w.aux⟩ := by
  have hsame : ∀ t, (update w.st.procs u Q t).fds = (w.st.procs t).fds ∧
      (update w.st.procs u Q t).binFile = (w.st.procs t).binFile := by
    intro t
    by_cases ht : t = u
    · subst ht; simp [hfds, hbin]
    · simp [ht]
  have hk : ∀ g, Kept w.st.files (update w.st.procs u Q) g ↔ Kept w.st.files w.st.procs g :=
    fun g => kept_congr hsame
  constructor
  · exact { hi with
      fresh := newInv_update hi.fresh h.status
      pte := pteInv_update hi h.alive
      map := hi.map.update h.maps
      range := rangeInv_update hi h
      file := { hi.file with
        fd := fun h' => hi.file.fd ((hsame _).1 ▸ h')
        fdNodup := fun t => (hsame t).1 ▸ hi.file.fdNodup t
        fdOwner := fun h1 h2 => hi.file.fdOwner ((hsame _).1 ▸ h1) ((hsame _).1 ▸ h2)
        bin := fun h' => by
          obtain ⟨h1, h2⟩ := hi.file.bin ((hsame _).2 ▸ h')
          exact ⟨h1, fun t' fd hfd => h2 t' fd ((hsame t').1 ▸ hfd)⟩
        binOwner := fun h1 h2 => hi.file.binOwner ((hsame _).2 ▸ h1) ((hsame _).2 ▸ h2)
        map := by
          intro t m M hm hM
          by_cases ht : t = u
          · subst ht
            obtain ⟨g, h1, h2⟩ := hfile m M (by simpa using hm) (by simpa using hM)
            exact ⟨g, h1, (hk g).2 h2⟩
          · obtain ⟨g, h1, h2⟩ := hi.file.map (by simpa [ht] using hm) (by simpa [ht] using hM)
            exact ⟨g, h1, (hk g).2 h2⟩
        mmap := fun hp hm => by
          obtain ⟨g, h1, h2⟩ := hi.file.mmap hp hm
          exact ⟨g, h1, (hk g).2 h2⟩
        seg := fun hp hm hg => by
          obtain ⟨h1, h2⟩ := hi.file.seg hp hm hg
          exact ⟨(hsame _).2.trans h1, h2⟩ } }
  · intro t ht
    exact { Keep.refl G t w with
      proc := by simp [ht]
      held := fun f _ _ _ _ hp _ => { HeldSame.refl G f hp with }
      kept := fun g hg => (hk g).2 hg }

/-! ## A process without pages -/

theorem no_page (hi : Inv G w) (hE : w.st.table u = []) {p : PageId} {r : Page}
    (hp : w.st.pages p = some r) : r.thread ≠ u := by
  rintro rfl
  have := hi.table.owned hp
  simp_all

/-- The page directory of a process without pages is created or destroyed. -/
theorem step_setPagedir (hi : Inv G w) (hE : w.st.table u = []) (hn : (w.st.procs u).status ≠ .new)
    {D : Option Pagedir} (hz : ∀ a, (pteOf D a).present = false) :
    Step G u none w ⟨w.st.setPagedir u D, w.aux⟩ := by
  have hold : ∀ {v}, v ≠ u → ∀ a, (w.st.setPagedir u D).pte v a = w.st.pte v a := by
    intro v hv a
    simp [St.pte, hv]
  refine { inv := { hi with fresh := ?_, pte := ⟨?_⟩, data := ?_ },
           keep := fun t ht => { Keep.refl G t w with pte := ?_, held := ?_ },
           calm := { Calm.refl _ none w with off := ?_ } }
  · intro v hv
    obtain ⟨h1, h2, h3⟩ := hi.fresh v hv
    have : v ≠ u := by rintro rfl; exact hn hv
    exact ⟨h1, h2, by simpa [this] using h3⟩
  · intro v a hv hpr
    have hvu : v ≠ u := by
      rintro rfl
      simp only [St.setPagedir_pagedirs, update_self, hz] at hpr
      cases hpr
    have := hold hvu a
    simp only [St.pte] at this
    rw [this] at hpr ⊢
    exact hi.pte.page hv hpr
  · intro hd
    refine ⟨(hi.data hd).out, ?_⟩
    intro v p r f h1 h2 h3 h4 h5 h6
    obtain rfl := thread_of_mem hi h2 h1
    have := hold (no_page hi hE h2) r.addr
    refine ((hi.data hd).inn h1 h2 h3 h4 h5 ?_).congr (congrArg Pte.dirty this)
    exact h6.imp_right fun h => (congrArg Pte.present this).symm.trans h
  · intro a
    rw [hold ht a]; exact .refl _
  · intro f p r hl hf hp hb
    have := hold (no_page hi hE hp) r.addr
    exact { HeldSame.refl G f hp with
      off := fun h => by rw [this]; exact ⟨h, rfl, rfl⟩
      data := fun _ hd h1 h2 => (hd h1 h2).congr (congrArg Pte.dirty this) }
  · intro a _
    simp [St.pte, hz]

/-- The table of a process without pages is created. -/
theorem step_setTable (hi : Inv G w) (hE : w.st.table u = []) (hn : (w.st.procs u).status ≠ .new)
    {T : Option PageTable} (hE' : elemsOf T = []) :
    Moves G u w ⟨w.st.setTable u T, w.aux⟩ := by
  have hel : ∀ v, elemsOf ((w.st.setTable u T).tables v) = elemsOf (w.st.tables v) := by
    intro v
    by_cases hv : v = u
    · subst hv; simpa [hE'] using hE.symm
    · simp [hv]
  have hmem : ∀ v q, q ∈ elemsOf ((w.st.setTable u T).tables v) ↔ q ∈ elemsOf (w.st.tables v) :=
    fun v q => by rw [hel]
  constructor
  · exact {
      frame := hi.frame
      table := {
        page := fun h => hi.table.page (hel _ ▸ h)
        nodup := fun v => (hel v).symm ▸ hi.table.nodup v
        uniq := fun h1 h2 => hi.table.uniq (hel _ ▸ h1) (hel _ ▸ h2)
        aligned := hi.table.aligned
        owned := fun h => (hel _).symm ▸ hi.table.owned h }
      fresh := by
        intro v hv
        obtain ⟨h1, h2, h3⟩ := hi.fresh v hv
        have : v ≠ u := by rintro rfl; exact hn hv
        exact ⟨h1, by simpa [this] using h2, h3⟩
      pte := ⟨fun h1 h2 => by rw [hel]; exact hi.pte.page h1 h2⟩
      map := ⟨hi.map.live, hi.map.nodup, fun h => by rw [hel]; exact hi.map.page h⟩
      swap := hi.swap
      file := hi.file
      leak := hi.leak
      data := fun hd => ⟨fun h => (hi.data hd).out (hel _ ▸ h), fun h => (hi.data hd).inn (hel _ ▸ h)⟩
      range := fun hg => ⟨fun h => (hi.range hg).range (hel _ ▸ h), fun h => by
        rw [hel]; exact (hi.range hg).stack h⟩ }
  · intro t ht
    exact { Keep.refl G t w with
      table := by simp [ht]
      held := fun f p r _ _ hp _ => { HeldSame.refl G f hp with
        table := (hmem r.thread p).1
        data := fun _ hd h1 h2 => hd ((hmem r.thread p).1 h1) h2 } }

/-! ## Files -/

/-- Byte `o` of a page backed by `g` depends on the inode of `g` alone. -/
theorem backing_congr {s s' : St} {r : Page}
    (h : ∀ g, r.file = some g → (s'.files g).map File.inode = (s.files g).map File.inode)
    (hi : ∀ g F, r.file = some g → s.files g = some F →
      (s'.inodes F.inode).length = (s.inodes F.inode).length ∧
        (s'.inodes F.inode).data = (s.inodes F.inode).data) :
    s'.backing r = s.backing r := by
  funext o
  simp only [St.backing]
  cases hf : r.file with
  | none => rfl
  | some g =>
    have h1 := h g hf
    simp only [St.fileByte]
    cases hF : s.files g with
    | none =>
      rw [hF] at h1
      have : s'.files g = none := by simpa using h1
      rw [this]
    | some F =>
      rw [hF] at h1
      obtain ⟨F', hF', he⟩ := Option.map_eq_some_iff.1 h1
      obtain ⟨h2, h3⟩ := hi g F hf hF
      have h4 : inFile (s'.inodes F'.inode) r.fileBytes r.fileOffset =
          inFile (s.inodes F.inode) r.fileBytes r.fileOffset := by simp only [inFile, he, h2]
      have h5 : (s'.inodes F'.inode).data = (s.inodes F.inode).data := by rw [he, h3]
      simp only [hF', h4, h5]

theorem DataInv.congrB {L : FrameId → Option Tid} {gu : PageId → Bool} {pd : Tid → Option Pagedir}
    {ram : FrameId → Nat → Byte} {B B' : Page → Nat → Byte} {saved : PageId → Nat → Byte}
    {mem : Tid → Nat → Byte} (h : DataInv T P L gu pd ram B saved mem)
    (hB : ∀ p r, P p = some r → r.isMmap = false → B' r = B r) :
    DataInv T P L gu pd ram B' saved mem where
  out := by
    intro t p r h1 h2 h3 h4 o ho
    rw [hB p r h2 h3]; exact h.out h1 h2 h3 h4 o ho
  inn := by
    intro t p r f h1 h2 h3 h4 h5 h6 o ho
    rw [hB p r h2 h3]; exact h.inn h1 h2 h3 h4 h5 h6 o ho

/-- A step that changes files and process records, but not what the pages of
executables read. -/
theorem step_files (hi : Inv G w) {files' : FileId → Option File} {inodes' : InodeId → Inode} (h : ProcOk G w u Q)
    (hfile : FileInv files' inodes' (update w.st.procs u Q) w.st.pages)
    (hB : ∀ p r, w.st.pages p = some r → r.isMmap = false →
      St.backing { w.st with files := files', inodes := inodes', procs := update w.st.procs u Q } r =
        w.st.backing r)
    (hkept : ∀ g, Kept w.st.files w.st.procs g → Kept files' (update w.st.procs u Q) g)
    (hbin : ∀ t g, t ≠ u → (w.st.procs t).binFile = some g → files' g = w.st.files g) :
    Moves G u w ⟨{ w.st with files := files', inodes := inodes', procs := update w.st.procs u Q }, w.aux⟩ := by
  constructor
  · exact { hi with
      fresh := newInv_update hi.fresh h.status
      pte := pteInv_update hi h.alive
      map := hi.map.update h.maps
      file := hfile
      data := fun hd => (hi.data hd).congrB hB
      range := rangeInv_update hi h }
  · intro t ht
    exact { Keep.refl G t w with
      proc := by simp [ht]
      kept := hkept
      bin := fun g hg => hbin t g ht hg
      backing := fun p r hp _ hm => hB p r hp hm
      held := fun f p r _ _ hp _ => { HeldSame.refl G f hp with
        data := by
          intro _ hd h1 h2 o ho
          rw [hB p r hp h2]; exact hd h1 h2 o ho } }

/-! ## Opening and closing -/

section Files
variable {files : FileId → Option File} {inodes : InodeId → Inode} {Pr Pr' : Tid → Proc}
  {P : PageId → Option Page} {g : FileId} {i : InodeId} {F : File}

theorem denySet_subset (i : InodeId) : denySet files i ⊆ openSet files i := by
  rintro g ⟨F, h1, h2, -⟩
  exact ⟨F, h1, h2⟩

theorem FileInv.denied_pos (h : FileInv files inodes Pr P) (hF : files g = some F)
    (hd : F.denyWrite = true) : (inodes F.inode).denyWriteCnt ≠ 0 := by
  intro h0
  have := h.denied F.inode
  rw [h0, Nat.cast_zero, Set.encard_eq_zero] at this
  exact (Set.eq_empty_iff_forall_notMem.1 this g) ⟨F, hF, rfl, hd⟩

/-- Whatever a page or a process refers to is open, so it is not a new file. -/
theorem FileInv.fd_ne (h : FileInv files inodes Pr P) (hg : files g = none)
    {fd : FileDescriptor} (hfd : fd ∈ (Pr t).fds) : fd.file ≠ g := by
  rintro rfl
  obtain ⟨F, hF, -⟩ := h.fd hfd
  simp [hg] at hF

variable {g0 : FileId}

theorem FileInv.bin_ne (h : FileInv files inodes Pr P) (hg : files g = none)
    (hb : (Pr t).binFile = some g0) : g0 ≠ g := by
  rintro rfl
  simpa [hg] using (h.bin hb).1

theorem kept_ne (hg : files g = none) (hk : Kept files Pr g0) : g0 ≠ g := by
  rintro rfl
  simpa [hg] using hk.1

/-- How the records of the processes change when `u` opens `g`. -/
structure Opens (Pr Pr' : Tid → Proc) (u : Tid) (g : FileId) : Prop where
  fds : ∀ {t fd}, fd ∈ (Pr' t).fds → fd ∈ (Pr t).fds ∨ (t = u ∧ fd.file = g)
  nodup : ∀ t, ((Pr' t).fds.map FileDescriptor.file).Nodup
  bin : ∀ {t g0}, (Pr' t).binFile = some g0 →
    (Pr t).binFile = some g0 ∨ (t = u ∧ g0 = g ∧ ∀ fd ∈ (Pr' t).fds, fd.file ≠ g)
  binOld : ∀ {t g0}, (Pr t).binFile = some g0 → (Pr' t).binFile = some g0
  map : ∀ {t m M}, m ∈ (Pr' t).mappings → (Pr' t).maps m = some M →
    m ∈ (Pr t).mappings ∧ (Pr t).maps m = some M

theorem Opens.kept (h : Opens Pr Pr' u g) (hg : files g = none)
    (hk : Kept files Pr g0) : Kept (update files g (some F)) Pr' g0 := by
  have hne := kept_ne hg hk
  refine ⟨by simpa [hne] using hk.1, fun t => ⟨fun hb => ?_, fun fd hfd => ?_⟩⟩
  · rcases h.bin hb with hb' | ⟨-, h', -⟩
    · exact (hk.2 t).1 hb'
    · exact hne h'
  · rcases h.fds hfd with hfd' | ⟨-, h'⟩
    · exact (hk.2 t).2 fd hfd'
    · exact fun h'' => hne (h''.symm.trans h')

theorem FileInv.open (h : FileInv files inodes Pr P) (ho : Opens Pr Pr' u g) (hg : files g = none) :
    FileInv (update files g (some ⟨i, 0, false⟩))
      (update inodes i (inodes i).reopen) Pr' P := by
  constructor
  case fd =>
    intro t fd hfd
    rcases ho.fds hfd with hfd' | ⟨-, rfl⟩
    · simpa [h.fd_ne hg hfd'] using h.fd hfd'
    · simp
  case fdNodup => exact ho.nodup
  case fdOwner =>
    intro t t' fd fd' hfd hfd' he
    rcases ho.fds hfd with h1 | ⟨rfl, h1⟩ <;> rcases ho.fds hfd' with h2 | ⟨rfl, h2⟩
    · exact h.fdOwner h1 h2 he
    · exact absurd (he.trans h2) (h.fd_ne hg h1)
    · exact absurd (he.symm.trans h1) (h.fd_ne hg h2)
    · rfl
  case bin =>
    intro t g0 hb
    rcases ho.bin hb with hb' | ⟨rfl, rfl, hb'⟩
    · obtain ⟨h1, h2⟩ := h.bin hb'
      have hne := h.bin_ne hg hb'
      refine ⟨by simpa [hne] using h1, fun t' fd hfd => ?_⟩
      rcases ho.fds hfd with hfd' | ⟨-, hfd'⟩
      · exact h2 t' fd hfd'
      · exact fun he => hne (he.symm.trans hfd')
    · refine ⟨by simp, fun t' fd hfd => ?_⟩
      rcases ho.fds hfd with hfd' | ⟨rfl, -⟩
      · exact h.fd_ne hg hfd'
      · exact hb' fd hfd
  case binOwner =>
    intro t t' g0 hb hb'
    rcases ho.bin hb with h1 | ⟨rfl, rfl, -⟩ <;> rcases ho.bin hb' with h2 | ⟨rfl, h2, -⟩
    · exact h.binOwner h1 h2
    · exact absurd h2 (h.bin_ne hg h1)
    · exact absurd rfl (h.bin_ne hg h2)
    · rfl
  case map =>
    intro t m M hm hM
    obtain ⟨h1, h2⟩ := ho.map hm hM
    obtain ⟨g0, h3, h4⟩ := h.map h1 h2
    exact ⟨g0, h3, ho.kept hg h4⟩
  case mmap =>
    intro p r hp hm
    obtain ⟨g0, h3, h4⟩ := h.mmap hp hm
    exact ⟨g0, h3, ho.kept hg h4⟩
  case seg =>
    intro p r g0 hp hm hf
    obtain ⟨h1, F, h2, h3⟩ := h.seg hp hm hf
    exact ⟨ho.binOld h1, F, by simpa [h.bin_ne hg h1] using h2, h3⟩
  case opened =>
    intro j
    have hnot : g ∉ openSet files j := by rintro ⟨F, hF, -⟩; simp [hg] at hF
    by_cases hj : j = i
    · subst hj
      have : openSet (update files g (some ⟨j, 0, false⟩)) j = insert g (openSet files j) := by
        ext g0
        by_cases hgg : g0 = g
        · subst hgg; simp [openSet]
        · simp [openSet, hgg]
      rw [this, Set.encard_insert_of_notMem hnot]
      simp only [update_self, Inode.reopen, Nat.cast_add, Nat.cast_one]
      rw [← h.opened j]
    · have : openSet (update files g (some ⟨i, 0, false⟩)) j = openSet files j := by
        ext g0
        by_cases hgg : g0 = g
        · subst hgg; simp [openSet, hg, Ne.symm hj]
        · simp [openSet, hgg]
      rw [this]
      simpa [hj] using h.opened j
  case denied =>
    intro j
    have : denySet (update files g (some ⟨i, 0, false⟩)) j = denySet files j := by
      ext g0
      by_cases hgg : g0 = g
      · subst hgg; simp [denySet, hg]
      · simp [denySet, hgg]
    rw [this]
    by_cases hj : j = i
    · subst hj
      simp only [update_self, Inode.reopen]
      split
      · -- nobody has the inode open, so nobody denies writes to it
        rename_i h0
        have hemp : openSet files j = ∅ := by
          rw [← Set.encard_eq_zero]
          exact (h.opened j).trans (by simp [h0])
        have hsub := (denySet_subset j : denySet files j ⊆ openSet files j)
        rw [hemp, Set.subset_empty_iff] at hsub
        simp [hsub]
      · exact h.denied j
    · simpa [hj] using h.denied j

theorem encard_pred {x : ℕ∞} {n : ℕ} (h : x + 1 = n) : x = (n - 1 : ℕ) := by
  induction x using ENat.recTopCoe with
  | top => simp at h
  | coe m =>
    have : m + 1 = n := by exact_mod_cast h
    exact_mod_cast (by omega : m = n - 1)

/-- How the records of the processes change when `g`, which one of them
refers to, is closed. -/
structure Closes (files : FileId → Option File) (P : PageId → Option Page) (Pr Pr' : Tid → Proc)
    (g : FileId) : Prop where
  fds : ∀ {t fd}, fd ∈ (Pr' t).fds → fd ∈ (Pr t).fds ∧ fd.file ≠ g
  nodup : ∀ t, ((Pr' t).fds.map FileDescriptor.file).Nodup
  bin : ∀ {t g0}, (Pr' t).binFile = some g0 → (Pr t).binFile = some g0 ∧ g0 ≠ g
  map : ∀ {t m M}, m ∈ (Pr' t).mappings → (Pr' t).maps m = some M →
    m ∈ (Pr t).mappings ∧ (Pr t).maps m = some M
  ref : ∀ {g0}, Kept files Pr g0 → g0 ≠ g
  seg : ∀ {p r g0}, P p = some r → r.isMmap = false → r.file = some g0 →
    g0 ≠ g ∧ (Pr' r.thread).binFile = some g0

theorem Closes.kept (h : Closes files P Pr Pr' g) (hk : Kept files Pr g0) :
    Kept (update files g none) Pr' g0 :=
  ⟨by simpa [h.ref hk] using hk.1,
    fun t => ⟨fun hb => (hk.2 t).1 (h.bin hb).1, fun fd hfd => (hk.2 t).2 fd (h.fds hfd).1⟩⟩

theorem FileInv.close (h : FileInv files inodes Pr P) (hc : Closes files P Pr Pr' g)
    (hF : files g = some F) {n' : Inode} (hn1 : n'.openCnt = (inodes F.inode).openCnt - 1)
    (hn2 : n'.denyWriteCnt = (inodes F.inode).denyWriteCnt - if F.denyWrite then 1 else 0) :
    FileInv (update files g none) (update inodes F.inode n') Pr' P := by
  constructor
  case fd =>
    intro t fd hfd
    obtain ⟨h1, h2⟩ := hc.fds hfd
    simpa [h2] using h.fd h1
  case fdNodup => exact hc.nodup
  case fdOwner => exact fun h1 h2 => h.fdOwner (hc.fds h1).1 (hc.fds h2).1
  case bin =>
    intro t g0 hb
    obtain ⟨h1, h2⟩ := hc.bin hb
    obtain ⟨h3, h4⟩ := h.bin h1
    exact ⟨by simpa [h2] using h3, fun t' fd hfd => h4 t' fd (hc.fds hfd).1⟩
  case binOwner => exact fun h1 h2 => h.binOwner (hc.bin h1).1 (hc.bin h2).1
  case map =>
    intro t m M hm hM
    obtain ⟨h1, h2⟩ := hc.map hm hM
    obtain ⟨g0, h3, h4⟩ := h.map h1 h2
    exact ⟨g0, h3, hc.kept h4⟩
  case mmap =>
    intro p r hp hm
    obtain ⟨g0, h3, h4⟩ := h.mmap hp hm
    exact ⟨g0, h3, hc.kept h4⟩
  case seg =>
    intro p r g0 hp hm hf
    obtain ⟨-, F0, h2, h3⟩ := h.seg hp hm hf
    obtain ⟨h4, h5⟩ := hc.seg hp hm hf
    exact ⟨h5, F0, by simpa [h4] using h2, h3⟩
  case opened =>
    intro j
    have hset : openSet (update files g none) j = openSet files j \ {g} := by
      ext g0
      by_cases hgg : g0 = g
      · subst hgg; simp [openSet]
      · simp [openSet, hgg]
    rw [hset]
    by_cases hj : j = F.inode
    · subst hj
      have hmem : g ∈ openSet files F.inode := ⟨F, hF, rfl⟩
      have := Set.encard_sdiff_singleton_add_one hmem
      rw [h.opened F.inode] at this
      simp only [update_self, hn1]
      exact encard_pred this
    · have hnot : g ∉ openSet files j := by
        rintro ⟨F0, h1, h2⟩
        rw [hF] at h1
        exact hj (by rw [← h2]; exact congrArg File.inode (by simpa using h1.symm))
      rw [Set.sdiff_singleton_eq_self hnot]
      simpa [hj] using h.opened j
  case denied =>
    intro j
    have hset : denySet (update files g none) j = denySet files j \ {g} := by
      ext g0
      by_cases hgg : g0 = g
      · subst hgg; simp [denySet]
      · simp [denySet, hgg]
    rw [hset]
    by_cases hj : j = F.inode ∧ F.denyWrite = true
    · obtain ⟨rfl, hd⟩ := hj
      have hmem : g ∈ denySet files F.inode := ⟨F, hF, rfl, hd⟩
      have := Set.encard_sdiff_singleton_add_one hmem
      rw [h.denied F.inode] at this
      simp only [update_self, hn2, hd, if_true]
      exact encard_pred this
    · have hnot : g ∉ denySet files j := by
        rintro ⟨F0, h1, h2, h3⟩
        obtain rfl := Option.mem_unique hF h1
        exact hj ⟨h2.symm, h3⟩
      rw [Set.sdiff_singleton_eq_self hnot]
      by_cases hj' : j = F.inode
      · subst hj'
        have hd : F.denyWrite = false := by simpa using hj
        simpa [hn2, hd] using h.denied F.inode
      · simpa [hj'] using h.denied j

/-- `file_deny_write` on the executable of a process. -/
theorem FileInv.deny (h : FileInv files inodes Pr P) (hb : (Pr u).binFile = some g)
    (hF : files g = some F) (hd : F.denyWrite = false) {n' : Inode}
    (hn1 : n'.openCnt = (inodes F.inode).openCnt)
    (hn2 : n'.denyWriteCnt = (inodes F.inode).denyWriteCnt + 1) :
    FileInv (update files g (some { F with denyWrite := true }))
      (update inodes F.inode n') Pr P := by
  have hsome : ∀ g0, (update files g (some { F with denyWrite := true }) g0).isSome =
      (files g0).isSome := by
    intro g0
    by_cases hgg : g0 = g
    · subst hgg; simp [hF]
    · simp [hgg]
  have hk : ∀ g0, Kept files Pr g0 → Kept (update files g (some { F with denyWrite := true })) Pr g0 :=
    fun g0 hk => ⟨(hsome g0).trans hk.1, hk.2⟩
  constructor
  case fd =>
    intro t fd hfd
    have hne := (h.bin hb).2 t fd hfd
    simpa [hne] using h.fd hfd
  case fdNodup => exact h.fdNodup
  case fdOwner => exact h.fdOwner
  case bin => exact fun hb' => ⟨(hsome _).trans (h.bin hb').1, (h.bin hb').2⟩
  case binOwner => exact h.binOwner
  case map =>
    intro t m M hm hM
    obtain ⟨g0, h1, h2⟩ := h.map hm hM
    exact ⟨g0, h1, hk g0 h2⟩
  case mmap =>
    intro p r hp hm
    obtain ⟨g0, h1, h2⟩ := h.mmap hp hm
    exact ⟨g0, h1, hk g0 h2⟩
  case seg =>
    intro p r g0 hp hm hf
    obtain ⟨h1, F0, h2, h3⟩ := h.seg hp hm hf
    refine ⟨h1, ?_⟩
    by_cases hgg : g0 = g
    · subst hgg; exact ⟨{ F with denyWrite := true }, by simp, rfl⟩
    · exact ⟨F0, by simpa [hgg] using h2, h3⟩
  case opened =>
    intro j
    have hset : openSet (update files g (some { F with denyWrite := true })) j = openSet files j := by
      ext g0
      by_cases hgg : g0 = g
      · subst hgg; simp [openSet, hF]
      · simp [openSet, hgg]
    rw [hset, h.opened j]
    by_cases hj : j = F.inode
    · subst hj; simp [hn1]
    · simp [hj]
  case denied =>
    intro j
    by_cases hj : j = F.inode
    · subst hj
      have hnot : g ∉ denySet files F.inode := by
        rintro ⟨F0, h1, -, h3⟩
        obtain rfl := Option.mem_unique hF h1
        simp [hd] at h3
      have hset : denySet (update files g (some { F with denyWrite := true })) F.inode =
          insert g (denySet files F.inode) := by
        ext g0
        by_cases hgg : g0 = g
        · subst hgg; simp [denySet]
        · simp [denySet, hgg]
      rw [hset, Set.encard_insert_of_notMem hnot, h.denied F.inode]
      simp [hn2]
    · have hset : denySet (update files g (some { F with denyWrite := true })) j =
          denySet files j := by
        ext g0
        by_cases hgg : g0 = g
        · subst hgg; simp [denySet, hF, Ne.symm hj]
        · simp [denySet, hgg]
      rw [hset, h.denied j]
      simp [hj]

/-- Only the position of a file changes. -/
theorem FileInv.seek (h : FileInv files inodes Pr P) (hF : files g = some F) (pos : Nat) :
    FileInv (update files g (some { F with pos := pos })) inodes Pr P := by
  have hsame : ∀ g0, (update files g (some { F with pos := pos }) g0).map
      (fun F => (F.inode, F.denyWrite)) = (files g0).map (fun F => (F.inode, F.denyWrite)) := by
    intro g0
    by_cases hgg : g0 = g
    · subst hgg; simp [hF]
    · simp [hgg]
  have hget : ∀ {g0 F0}, files g0 = some F0 → ∃ F1,
      update files g (some { F with pos := pos }) g0 = some F1 ∧ F1.inode = F0.inode ∧
        F1.denyWrite = F0.denyWrite := by
    intro g0 F0 h0
    have := hsame g0
    rw [h0] at this
    obtain ⟨F1, h1, h2⟩ := Option.map_eq_some_iff.1 this
    simp only [Prod.mk.injEq] at h2
    exact ⟨F1, h1, h2⟩
  have hsome : ∀ g0, (files g0).isSome →
      (update files g (some { F with pos := pos }) g0).isSome := by
    intro g0 h0
    obtain ⟨F0, h0⟩ := Option.isSome_iff_exists.1 h0
    obtain ⟨F1, h1, -⟩ := hget h0
    simp [h1]
  have hset : ∀ j, openSet (update files g (some { F with pos := pos })) j = openSet files j ∧
      denySet (update files g (some { F with pos := pos })) j = denySet files j := by
    intro j
    constructor <;> ext g0 <;> by_cases hgg : g0 = g
    · subst hgg; simp [openSet, hF]
    · simp [openSet, hgg]
    · subst hgg; simp [denySet, hF]
    · simp [denySet, hgg]
  exact { h with
    fd := fun hfd => by
      obtain ⟨F0, h1, h2⟩ := h.fd hfd
      obtain ⟨F1, h3, -, h4⟩ := hget h1
      exact ⟨F1, h3, h4.trans h2⟩
    bin := fun hb => ⟨hsome _ (h.bin hb).1, (h.bin hb).2⟩
    map := fun hm hM => by
      obtain ⟨g0, h1, h2⟩ := h.map hm hM
      exact ⟨g0, h1, hsome _ h2.1, h2.2⟩
    mmap := fun hp hm => by
      obtain ⟨g0, h1, h2⟩ := h.mmap hp hm
      exact ⟨g0, h1, hsome _ h2.1, h2.2⟩
    seg := fun hp hm hf => by
      obtain ⟨h1, F0, h2, h3⟩ := h.seg hp hm hf
      obtain ⟨F1, h4, -, h5⟩ := hget h2
      exact ⟨h1, F1, h4, h5.trans h3⟩
    opened := fun j => by rw [(hset j).1]; exact h.opened j
    denied := fun j => by rw [(hset j).2]; exact h.denied j }

end Files

/-! ## Steps on files -/

section Steps
variable {g : FileId} {i : InodeId} {F : File}

theorem procOk_same (hi : Inv G w) {Q : Proc} (hn : (w.st.procs u).status ≠ .new)
    (hs : Q.status = (w.st.procs u).status) (hm : Q.mappings = (w.st.procs u).mappings)
    (hM : ∀ m ∈ Q.mappings, Q.maps m = (w.st.procs u).maps m) : ProcOk G w u Q := by
  have hc : Q.covered = (w.st.procs u).covered := by
    simp only [Proc.covered, ← hm]
    exact List.flatMap_congr fun m hm' => by rw [hM m hm']
  have hok := hi.map.at u
  refine ⟨hs ▸ hn, fun h => hs ▸ h, ⟨?_, hc ▸ hok.nodup, by rw [hc]; exact hok.page⟩,
    fun hg h => (hi.range hg).stack (hs ▸ h)⟩
  intro m hm'
  rw [hM m hm']
  exact hok.live m (hm ▸ hm')

variable {P' : Proc} {p : PageId} {r : Page}

/-- Opening a file does not change what a page reads. -/
theorem backing_open (hi : Inv G w) (hg : w.st.files g = none)
    (hp : w.st.pages p = some r) (hm : r.isMmap = false) :
    St.backing { w.st with
      files := update w.st.files g (some ⟨i, 0, false⟩)
      inodes := update w.st.inodes i (w.st.inodes i).reopen
      procs := update w.st.procs u P' } r = w.st.backing r := by
  apply backing_congr
  · intro g0 hf
    have hne := hi.file.bin_ne hg (hi.file.seg hp hm hf).1
    simp [hne]
  · intro g0 F0 _ _
    by_cases hj : F0.inode = i
    · rw [hj]; simp [Inode.reopen]
    · simp [hj]

theorem step_open (hi : Inv G w) (hg : w.st.files g = none) (hP : ProcOk G w u P')
    (ho : Opens w.st.procs (update w.st.procs u P') u g) :
    Moves G u w ⟨(openFile w.st i g).setProc u P', w.aux⟩ :=
  step_files hi hP (hi.file.open ho hg) (fun _ _ hp hm => backing_open hi hg hp hm)
    (fun _ hk => ho.kept hg hk)
    (fun _ _ _ hb => update_of_ne (hi.file.bin_ne hg hb) _ _)

theorem backing_seek {s : St} (hF : s.files g = some F) (pos : Nat) (r : Page) :
    (s.setFile g (some { F with pos := pos })).backing r = s.backing r := by
  apply backing_congr
  · intro g0 _
    by_cases hgg : g0 = g
    · subst hgg; simp [hF]
    · simp [hgg]
  · exact fun _ _ _ _ => ⟨rfl, rfl⟩

/-- Files and inodes change, and no process's record. -/
theorem step_filesOnly (hi : Inv G w) (hn : (w.st.procs u).status ≠ .new) {files' : FileId → Option File}
    {inodes' : InodeId → Inode} (hfile : FileInv files' inodes' w.st.procs w.st.pages)
    (hB : ∀ p r, w.st.pages p = some r → r.isMmap = false →
      St.backing { w.st with files := files', inodes := inodes' } r = w.st.backing r)
    (hopen : ∀ g, (w.st.files g).isSome → (files' g).isSome)
    (hbin : ∀ t g, t ≠ u → (w.st.procs t).binFile = some g → files' g = w.st.files g) :
    Moves G u w ⟨{ w.st with files := files', inodes := inodes' }, w.aux⟩ := by
  have hup : update w.st.procs u (w.st.procs u) = w.st.procs := update_eq_self _ _
  have hP : ProcOk G w u (w.st.procs u) := procOk_same hi hn rfl rfl fun _ _ => rfl
  have hf : FileInv files' inodes' (update w.st.procs u (w.st.procs u)) w.st.pages := by
    rw [hup]; exact hfile
  have := step_files hi hP hf (by rw [hup]; exact hB) (fun g hk => by
    rw [hup]; exact ⟨hopen g hk.1, hk.2⟩) hbin
  rwa [hup] at this

/-- The position of a file moves that is no other process's executable. -/
theorem step_seek (hi : Inv G w) (hn : (w.st.procs u).status ≠ .new)
    (hb : ∀ t, t ≠ u → (w.st.procs t).binFile ≠ some g) (hF : w.st.files g = some F) (pos : Nat) :
    Moves G u w ⟨w.st.setFile g (some { F with pos := pos }), w.aux⟩ := by
  refine step_filesOnly hi hn (hi.file.seek hF pos) (fun _ r _ _ => backing_seek hF pos r) ?_ ?_
  · intro g0 h0
    by_cases hgg : g0 = g
    · subst hgg; simp
    · simpa [hgg] using h0
  · intro t g0 ht hb'
    have : g0 ≠ g := by rintro rfl; exact hb t ht hb'
    simp [this]

/-- `file_deny_write` on the executable. -/
theorem step_deny (hi : Inv G w) (hn : (w.st.procs u).status ≠ .new)
    (hb : (w.st.procs u).binFile = some g) (hF : w.st.files g = some F) (hd : F.denyWrite = false) :
    let s' := (w.st.setFile g (some { F with denyWrite := true })).setInode F.inode
      { w.st.inodes F.inode with denyWriteCnt := (w.st.inodes F.inode).denyWriteCnt + 1 }
    Moves G u w ⟨s', w.aux⟩ := by
  intro s'
  refine step_filesOnly hi hn (hi.file.deny hb hF hd rfl rfl) ?_ ?_ ?_
  · intro p r hp hm
    apply backing_congr
    · intro g0 hf
      by_cases hgg : g0 = g
      · subst hgg; simp [hF]
      · simp [hgg]
    · intro g0 F0 _ _
      by_cases hj : F0.inode = F.inode
      · simp [hj]
      · simp [hj]
  · intro g0 h0
    by_cases hgg : g0 = g
    · subst hgg; simp
    · simpa [hgg] using h0
  · intro t g0 ht hb'
    have : g0 ≠ g := by rintro rfl; exact ht (hi.file.binOwner hb' hb)
    simp [this]

/-- A write to an inode that nobody denies changes the backing of mmap pages only. -/
theorem backing_write (hi : Inv G w) {n' : Inode} (h0 : (w.st.inodes i).denyWriteCnt = 0) (hp : w.st.pages p = some r)
    (hm : r.isMmap = false) :
    (w.st.setInode i n').backing r = w.st.backing r := by
  apply backing_congr
  · exact fun _ _ => rfl
  · intro g0 F0 hf hF0
    obtain ⟨-, F1, h1, h2⟩ := hi.file.seg hp hm hf
    obtain rfl := Option.mem_unique hF0 h1
    have hne : F0.inode ≠ i := by
      rintro rfl
      exact hi.file.denied_pos h1 h2 h0
    simp [hne]

theorem heldSame_write (hi : Inv G w) {n' : Inode} (h0 : (w.st.inodes i).denyWriteCnt = 0) {f : FrameId}
    (hp : w.st.pages p = some r) :
    HeldSame G f p r w ⟨w.st.setInode i n', w.aux⟩ where
  __ := HeldSame.refl G f hp
  data := by
    intro _ hd h1 h2 o ho
    rw [backing_write hi h0 hp h2]
    exact hd h1 h2 o ho

theorem step_write (hi : Inv G w) {n : Inode} (h0 : (w.st.inodes i).denyWriteCnt = 0)
    (ho : n.openCnt = (w.st.inodes i).openCnt)
    (hd : n.denyWriteCnt = (w.st.inodes i).denyWriteCnt) :
    Step G u none w ⟨w.st.setInode i n, w.aux⟩ := by
  refine { inv := { hi with file := { hi.file with opened := ?_, denied := ?_ }, data := ?_ },
           keep := fun t ht => { Keep.refl G t w with
            backing := fun p r hp _ hm => backing_write hi h0 hp hm
            held := fun _ _ _ _ _ hp _ => heldSame_write hi h0 hp },
           calm := { Calm.refl u none w with } }
  · intro j
    by_cases hj : j = i
    · subst hj; simpa [ho] using hi.file.opened j
    · simpa [hj] using hi.file.opened j
  · intro j
    by_cases hj : j = i
    · subst hj; simpa [hd] using hi.file.denied j
    · simpa [hj] using hi.file.denied j
  · exact fun hG => (hi.data hG).congrB fun _ _ hp hm => backing_write hi h0 hp hm

theorem closeFile_some {s s' : St} (h : closeFile s g F = some s') :
    ∃ n', s' = (s.setFile g none).setInode F.inode n' ∧ n'.length = (s.inodes F.inode).length ∧
      n'.data = (s.inodes F.inode).data ∧ n'.openCnt = (s.inodes F.inode).openCnt - 1 ∧
      n'.denyWriteCnt = (s.inodes F.inode).denyWriteCnt - if F.denyWrite then 1 else 0 := by
  simp only [closeFile] at h
  split at h
  · rename_i hd
    split at h
    · simp only [Option.some.injEq] at h
      exact ⟨_, h.symm, rfl, rfl, rfl, by simp [hd]⟩
    · cases h
  · rename_i hd
    simp only [Option.some.injEq] at h
    exact ⟨_, h.symm, rfl, rfl, rfl, by simp [hd]⟩

theorem step_close (hi : Inv G w) (hF : w.st.files g = some F) {s' : St}
    (hs : closeFile w.st g F = some s') (hP : ProcOk G w u P')
    (hc : Closes w.st.files w.st.pages w.st.procs (update w.st.procs u P') g)
    (hb : ∀ t g0, t ≠ u → (w.st.procs t).binFile = some g0 → g0 ≠ g) :
    Moves G u w ⟨s'.setProc u P', w.aux⟩ := by
  obtain ⟨n', rfl, h1, h2, h3, h4⟩ := closeFile_some hs
  refine step_files hi hP (hi.file.close hc hF h3 h4) ?_ (fun _ hk => hc.kept hk)
    (fun t g0 ht hg0 => update_of_ne (hb t g0 ht hg0) _ _)
  intro p r hp hm
  apply backing_congr
  · intro g0 hf
    simp [(hc.seg hp hm hf).1]
  · intro g0 F0 _ _
    by_cases hj : F0.inode = F.inode
    · rw [hj]; simp [h1, h2]
    · simp [hj]

theorem closes_fd (hi : Inv G w) {fd : FileDescriptor} (hfd : fd ∈ (w.st.procs u).fds) :
    Closes w.st.files w.st.pages w.st.procs (update w.st.procs u
      { w.st.procs u with fds := (w.st.procs u).fds.erase fd }) fd.file where
  fds := by
    intro t fd' h
    by_cases ht : t = u
    · subst ht
      have hnd := hi.file.fdNodup t
      have h' : fd' ∈ (w.st.procs t).fds.erase fd := by simpa using h
      rw [(List.Nodup.of_map _ hnd).mem_erase_iff] at h'
      exact ⟨h'.2, fun he => h'.1 (List.inj_on_of_nodup_map hnd h'.2 hfd he)⟩
    · have h' : fd' ∈ (w.st.procs t).fds := by simpa [ht] using h
      exact ⟨h', fun he => ht (hi.file.fdOwner h' hfd he)⟩
  nodup := by
    intro t
    by_cases ht : t = u
    · subst ht
      simpa using (List.erase_sublist.map FileDescriptor.file).nodup (hi.file.fdNodup t)
    · simpa [ht] using hi.file.fdNodup t
  bin := by
    intro t g0 hb
    have hb' : (w.st.procs t).binFile = some g0 := by
      by_cases ht : t = u
      · subst ht; simpa using hb
      · simpa [ht] using hb
    exact ⟨hb', fun he => (hi.file.bin hb').2 u fd hfd he.symm⟩
  map := by
    intro t m M hm hM
    by_cases ht : t = u
    · subst ht; exact ⟨by simpa using hm, by simpa using hM⟩
    · exact ⟨by simpa [ht] using hm, by simpa [ht] using hM⟩
  ref := fun hk he => (hk.2 u).2 fd hfd he.symm
  seg := by
    intro p r g0 hp hm hf
    obtain ⟨h1, -⟩ := hi.file.seg hp hm hf
    refine ⟨fun he => (hi.file.bin h1).2 u fd hfd he.symm, ?_⟩
    by_cases ht : r.thread = u
    · rw [ht] at h1 ⊢; simpa using h1
    · simpa [ht] using h1

theorem closes_bin (hi : Inv G w) (hE : w.st.table u = []) (hb : (w.st.procs u).binFile = some g) :
    Closes w.st.files w.st.pages w.st.procs (update w.st.procs u
      { w.st.procs u with binFile := none }) g where
  fds := by
    intro t fd h
    have h' : fd ∈ (w.st.procs t).fds := by
      by_cases ht : t = u
      · subst ht; simpa using h
      · simpa [ht] using h
    exact ⟨h', (hi.file.bin hb).2 t fd h'⟩
  nodup := by
    intro t
    by_cases ht : t = u
    · subst ht; simpa using hi.file.fdNodup t
    · simpa [ht] using hi.file.fdNodup t
  bin := by
    intro t g0 h
    have ht : t ≠ u := by rintro rfl; simp at h
    have h' : (w.st.procs t).binFile = some g0 := by simpa [ht] using h
    refine ⟨h', ?_⟩
    rintro rfl
    exact ht (hi.file.binOwner h' hb)
  map := by
    intro t m M hm hM
    by_cases ht : t = u
    · subst ht; exact ⟨by simpa using hm, by simpa using hM⟩
    · exact ⟨by simpa [ht] using hm, by simpa [ht] using hM⟩
  ref := by
    rintro g0 hk rfl
    exact (hk.2 u).1 hb
  seg := by
    intro p r g0 hp hm hf
    obtain ⟨h1, -⟩ := hi.file.seg hp hm hf
    have ht := no_page hi hE hp
    refine ⟨?_, by simpa [ht] using h1⟩
    rintro rfl
    exact ht (hi.file.binOwner h1 hb)

end Steps

end Pintos.Vm
