import Pintos.L3Proof.MapSpec

/-!
# Specification of start_process

While it loads, a process has one open file, its executable, to which writes
are denied; its pages are backed by it or by nothing. Before it runs it has a
stack page at the top of user memory.
-/
namespace Pintos.Vm

open Pintos.Core Function Logic

variable {G : Goals} {t : Tid} {c : Known} {f : FrameId} {p : PageId} {r : Page} {w : W} {g : FileId}

/-! ## Headers -/

theorem half_lt (b : List Byte) (o : Nat) : half b o < 2 ^ 16 := by
  have h1 := (b.getD o 0).toNat_lt
  have h2 := (b.getD (o + 1) 0).toNat_lt
  simp only [half]; omega

theorem word_lt (b : List Byte) (o : Nat) : word b o < 2 ^ 32 := by
  have h1 := half_lt b o
  have h2 := half_lt b (o + 2)
  simp only [word]; omega

variable {h : Phdr} {cmdLine : List Byte}

/-- The pages of a segment that `validate_segment` accepts are user pages. -/
theorem validateSegment_range {length : Nat} (hv : validateSegment h length = true)
    (hm : h.memsz < 2 ^ 32) {j : Nat} (hj : j < roundUp (pgOfs h.vaddr + h.memsz) pgSize / pgSize) :
    pgSize ≤ pgRoundDown h.vaddr + pgSize * j ∧ pgRoundDown h.vaddr + pgSize * j < physBase := by
  simp only [validateSegment, Bool.and_eq_true, decide_eq_true_eq] at hv
  obtain ⟨⟨⟨⟨⟨⟨⟨-, -⟩, -⟩, h0⟩, h1⟩, h2⟩, h3⟩, h4⟩ := hv
  simp only [roundUp, pgOfs, pgRoundDown, pgSize, physBase, u32] at *
  omega

theorem validateSegment_bytes {length : Nat} (hv : validateSegment h length = true) :
    let readBytes := if 0 < h.filesz then pgOfs h.vaddr + h.filesz else 0
    readBytes + (roundUp (pgOfs h.vaddr + h.memsz) pgSize - readBytes) =
      roundUp (pgOfs h.vaddr + h.memsz) pgSize := by
  simp only [validateSegment, Bool.and_eq_true, decide_eq_true_eq] at hv
  obtain ⟨⟨⟨⟨⟨⟨⟨-, -⟩, hf⟩, -⟩, -⟩, -⟩, -⟩, -⟩ := hv
  simp only [roundUp, pgSize]
  split <;> omega

/-! ## The executable -/

/-- Writes to the executable `g` of the process are denied. -/
def Denied (t : Tid) (g : FileId) (w : W) : Prop :=
  (w.st.procs t).binFile = some g ∧ ∃ F, w.st.files g = some F ∧ F.denyWrite = true

theorem fileFact_denied : FileFact G t (Denied t g) where
  stable := stable_of_keep fun _ _ _ _ hk h =>
    ⟨by rw [hk.proc]; exact h.1, by rw [hk.bin g h.1]; exact h.2⟩
  same h1 h2 h := ⟨(h2 t).2.trans h.1, by rw [h1]; exact h.2⟩

/-- A process that loads its executable. -/
structure Loading (c : Known) : Prop where
  status : c.proc.status = .loading
  gone : c.gone = none

theorem Loading.ne (h : Loading c) : c.proc.status ≠ .new := by rw [h.status]; exact nofun

theorem Loading.alive (h : Loading c) : c.proc.status.alive := by rw [h.status]; exact ⟨nofun, nofun⟩

/-- Some context of the loading process, and its executable. -/
def LoadCtx (t : Tid) (g : FileId) (w : W) : Prop := ∃ c, Loading c ∧ Ctx t c w ∧ Denied t g w

theorem stable_loadCtx : (logic G).Stable t (LoadCtx t g) :=
  .exists fun _ => .and (.const _) (.and stable_ctx fileFact_denied.stable)

theorem tri_fileLength : Tri G t (LoadCtx t g) (fileLength g) fun _ => LoadCtx t g := by
  refine triple_act rfl (fun _ => stable_loadCtx) fun w hi hw e _ => ?_
  obtain ⟨c, -, -, -, F, hF, -⟩ := id hw
  simp only [hF]
  exact stays hi hw

/-- The position of the executable moves. -/
theorem loadCtx_seek (hi : Inv G w) {F : File} (hw : LoadCtx t g w) (hF : w.st.files g = some F) (pos : Nat) :
    MovesTo G t w ⟨w.st.setFile g (some { F with pos := pos }), w.aux⟩ (LoadCtx t g) := by
  obtain ⟨c, hl, hc, hb, F', hF', hd⟩ := hw
  obtain rfl := Option.mem_unique hF hF'
  obtain ⟨h1, h2⟩ := step_seek hi (by rw [hc.proc]; exact hl.ne)
    (fun u hu hb' => hu (hi.file.binOwner hb' hb)) hF pos
  exact ⟨h1, h2, c, hl, ⟨hc.proc, hc.table, hc.own, hc.off, hc.gone⟩, hb, _, update_self .., hd⟩

theorem tri_fileSeek {pos : Nat} : Tri G t (LoadCtx t g) (fileSeek g pos) fun _ => LoadCtx t g := by
  refine triple_act rfl (fun _ => stable_loadCtx) fun w hi hw e _ => ?_
  obtain ⟨c, -, -, -, F, hF, -⟩ := id hw
  simp only [hF]
  exact loadCtx_seek hi hw hF pos

theorem tri_fileRead {n : Nat} : Tri G t (LoadCtx t g) (fileRead g n) fun _ => LoadCtx t g := by
  refine triple_act rfl (fun _ => stable_loadCtx) fun w hi hw e _ => ?_
  obtain ⟨c, -, -, -, F, hF, -⟩ := id hw
  simp only [hF]
  exact loadCtx_seek hi hw hF _

/-! ## Segments -/

theorem tri_segLoop {writable : Bool} (n ofs upage readBytes : Nat)
    (hr : G.range → ∀ j < n, pgSize ≤ pgRoundDown (upage + pgSize * j) ∧
      pgRoundDown (upage + pgSize * j) < physBase) :
    Tri G t (LoadCtx t g) (segLoop g writable n ofs upage readBytes) fun _ => LoadCtx t g := by
  induction n generalizing ofs upage readBytes with
  | zero => exact triple_ret fun _ _ h => h
  | succ n ih =>
    refine triple_exists fun c => triple_pure fun hl => ?_
    refine triple_bind (tri_pageAllocate fileFact_denied hl.gone fun hG => ?_) fun o =>
      triple_or (triple_pure ?_) (triple_exists fun p => triple_exists fun es => triple_pure ?_)
    · simpa using hr hG 0 (by omega)
    · rintro rfl
      exact triple_ret fun w _ hw => ⟨c, hl, hw⟩
    rintro rfl
    refine triple_pure fun _ => ?_
    have hl1 : ∀ r, Loading (c.alloc p r es) := fun _ => ⟨hl.status, hl.gone⟩
    refine triple_bind (R := fun _ => LoadCtx t g) (tri_doIf (fun _ => ?_) fun _ w _ hw => ?_) fun _ => ih _ _ _ ?_
    · -- a segment page is private or read-only, so it is not an mmap page
      have hmm : ∀ a b d : Nat, ({ Page.fresh t upage (!writable) with
          file := some g, fileOffset := a, fileBytes := b } : Page).isMmap = false := by
        intro a b d
        cases writable <;> rfl
      have hl2 : ∀ r r', Loading ((c.alloc p r es).setOwn p r') := fun _ _ => ⟨hl.status, hl.gone⟩
      refine triple_conseq (tri_setFile (c := c.alloc p (.fresh t upage (!writable)) es)
        (P := fun w => Ctx t (c.alloc p (.fresh t upage (!writable)) es) w ∧ Denied t g w)
        (update_self ..) rfl hl.gone rfl rfl rfl fileFact_denied
        fun w _ hw => ⟨hw.1, hw.2, fun h => ?_, fun _ => ⟨hw.1.proc ▸ hw.2.1, hw.2.2⟩, fun _ h => ?_⟩)
        (fun _ _ h => h) fun _ w _ hw => ⟨_, hl2 _ _, hw⟩
      · exact absurd h (by rw [hmm _ _ 0]; exact nofun)
      · exact absurd h (by rw [hmm _ _ 0]; exact nofun)
    · exact ⟨_, hl1 _, hw⟩
    · intro hG j hj
      have := hr hG (j + 1) (by omega)
      rwa [show upage + pgSize + pgSize * j = upage + pgSize * (j + 1) by rw [Nat.mul_succ]; omega]

theorem tri_loadPhdr (hm : h.memsz < 2 ^ 32) :
    Tri G t (LoadCtx t g) (loadPhdr g h) fun _ => LoadCtx t g := by
  unfold loadPhdr
  refine tri_ite (fun _ => triple_ret fun _ _ h => h) fun _ => tri_ite (fun _ => ?_)
    fun _ => triple_ret fun _ _ h => h
  refine triple_bind tri_fileLength fun length => tri_ite (fun hv => ?_) fun _ => triple_ret fun _ _ h => h
  unfold loadSegment
  refine triple_bind tri_assert fun _ => triple_pure fun _ => ?_
  refine triple_bind tri_assert fun _ => triple_pure fun _ => ?_
  refine triple_bind tri_assert fun _ => triple_pure fun _ => ?_
  rw [validateSegment_bytes hv]
  refine tri_segLoop _ _ _ _ fun _ j hj => ?_
  have hal : pgOfs (pgRoundDown h.vaddr + pgSize * j) = 0 := by
    simp only [pgOfs, pgRoundDown, pgSize]; omega
  rw [pgRoundDown_of_aligned hal]
  exact validateSegment_range hv hm hj

theorem tri_phdrLoop (n : Nat) (ofs : Int) :
    Tri G t (LoadCtx t g) (phdrLoop g n ofs) fun _ => LoadCtx t g := by
  induction n generalizing ofs with
  | zero => exact triple_ret fun _ _ h => h
  | succ n ih =>
    refine triple_bind tri_fileLength fun length => tri_ite (fun _ => triple_ret fun _ _ h => h) fun _ => ?_
    refine triple_bind tri_fileSeek fun _ => triple_bind tri_fileRead fun b => ?_
    refine tri_ite (fun _ => ?_) fun _ => triple_ret fun _ _ h => h
    refine triple_bind (tri_loadPhdr (word_lt b 20)) fun ok => ?_
    exact tri_ite (fun _ => ih _) fun _ => triple_ret fun _ _ h => h

/-! ## The stack -/

/-- A member of a page in a locked frame changes. -/
theorem tri_modParked {Q : View → Prop} {k : Page → Page} (hs : Sim r (k r)) (hm : r.isMmap = false)
    (hf : (k r).frame = r.frame) (hsec : (k r).sector = r.sector) :
    Tri G t (fun w => Ctx t c w ∧ Parked t f p r Q w) (modPage .tau p k) fun _ w =>
      Ctx t c w ∧ Parked t f p (k r) Q w := by
  refine tri_modPage (fun w => w.aux) (fun _ _ _ => rfl) (.and stable_ctx stable_parked)
    (fun _ _ _ => trivial) fun w hi hw => ?_
  have hh := hw.2.held
  have hst := step_modHeld hi hh hw.2.off hs hm hf hsec
  refine ⟨r, none, hh.page, hst, hw.1.step hi hst, ⟨hh.lock, hh.frame, by simp, hf.trans hh.back, hh.kept⟩, ?_, ?_⟩
  · simp only [Off, hs.addr, hs.thread]; exact hw.2.off
  · simp only [view, hs.addr, hs.thread]; exact hw.2.view

/-- `init_cmd_line`: the frame is now what the memory of the page is. -/
theorem tri_writeCmdLine (ht : r.thread = t) (hsec : r.sector = none)
    (hfile : r.file = none) :
    Tri G t (fun w => Ctx t c w ∧ Parked t f p r View.quiet w) (writeCmdLine p f r.addr cmdLine)
      fun _ w => Ctx t (c.setOwn p r) w ∧ Locked G t f p r w := by
  refine triple_act rfl (fun _ => .and stable_ctx stable_locked) fun w hi hw e _ => ?_
  obtain ⟨hc, hpk⟩ := hw
  have hh := hpk.held
  -- whatever the new bytes `m` of the frame are
  have key : ∀ m : Nat → Byte, ∃ w' : W, w' = Logic.next t (Lbl.initCmdLine p) e w (w.st.setRam f m) ∧
      MovesTo G t w w' fun w => Ctx t (c.setOwn p r) w ∧ Locked G t f p r w := by
    intro m
    have hs := step_writeStack hi hh ht hpk.off m
    have haux : auxStep t (.initCmdLine p) e w.st (w.st.setRam f m) w.aux = { w.aux with
        mem := update w.aux.mem t (putPage (w.aux.mem t) r.addr m) } := by
      have hb : (w.st.setRam f m).frameBytes p = m := by
        rw [frameBytes_eq (s := w.st.setRam f m) hh.page hh.back]
        exact update_self ..
      simp only [auxStep, Aux.define, St.setRam_pages, hh.page, hb]
    refine ⟨⟨w.st.setRam f m, { w.aux with
        mem := update w.aux.mem t (putPage (w.aux.mem t) r.addr m) }⟩, by simp only [Logic.next, haux],
      hs.inv, hs.keep, (hc.step hi hs).setOwn hh.page ht, ⟨hh.lock, hh.frame, hh.page, hh.back, hh.kept⟩,
      hpk.view, hsec, fun hd hmem hm o ho => ⟨?_, by simp [hfile]⟩⟩
    have hal := hi.table.aligned hh.page
    simp [ht, putPage, pgRoundDown_add hal ho, pgOfs_add hal ho]
  dsimp only
  cases initCmdLine (w.st.ram f) r.addr cmdLine with
  | none =>
    obtain ⟨w', hw', h⟩ := key (w.st.ram f)
    have hsame : w.st.setRam f (w.st.ram f) = w.st := by rw [St.setRam, update_eq_self]
    rw [hsame] at hw'
    subst hw'
    exact h
  | some x =>
    obtain ⟨w', hw', h⟩ := key x.1
    subst hw'
    exact h

/-- The process has its stack page. -/
def HasStack (t : Tid) (P : Proc) (w : W) : Prop :=
  ∃ c p r, (c.proc = P ∧ c.gone = none ∧ c.own p = some r ∧ r.addr = physBase - pgSize ∧
    r.isMmap = false) ∧ Ctx t c w

theorem stable_hasStack {P : Proc} : (logic G).Stable t (HasStack t P) :=
  .exists fun _ => .exists fun _ => .exists fun _ => .and (.const _) stable_ctx

theorem HasStack.base {P : Proc} (h : HasStack t P w) : Base t P w := by
  obtain ⟨c, p, r, ⟨h1, h2, -⟩, hc⟩ := h
  exact ⟨c, ⟨h1, h2⟩, hc⟩

theorem tri_setupStack (hl : Loading c) :
    Tri G t (Ctx t c) (setupStack cmdLine) fun o w =>
      Base t c.proc w ∧ (o.isSome → HasStack t c.proc w) := by
  unfold setupStack
  refine triple_bind (triple_pre (tri_pageAllocate .true hl.gone fun _ => ?_) fun _ _ h => ⟨h, trivial⟩) fun o =>
    triple_or (triple_pure ?_) (triple_exists fun p => triple_exists fun es => triple_pure ?_)
  · decide
  · rintro rfl
    exact triple_ret fun w _ hw => ⟨hw.1.base hl.gone, nofun⟩
  rintro rfl
  refine triple_pure fun _ => ?_
  set r0 := Page.fresh t (physBase - pgSize) false with hr0
  set c1 := c.alloc p r0 es with hc1
  have ho : c1.own p = some r0 := update_self ..
  have hg : c1.gone = none := hl.gone
  refine triple_bind (triple_pre (tri_frameAllocAndLock ho rfl) fun w _ hw => hw.1) fun f? => ?_
  cases f? with
  | none =>
    exact triple_bind (triple_pre (tri_setNoFrame ho rfl) fun w _ hw => hw.1) fun _ =>
      triple_ret fun w _ hw => ⟨hw.base (c := c1) hg, nofun⟩
  | some f =>
    refine triple_bind (tri_insertFrame ho rfl hg hl.alive) fun _ => triple_pure fun ⟨ht, _⟩ => ?_
    unfold fillStack
    refine triple_pre (R := fun w => Ctx t (c1.forget p) w ∧
      Parked t f p { r0 with frame := some f } View.quiet w) ?_ fun w _ hw => ⟨hw.ctx, hw.parked⟩
    refine triple_bind (tri_modParked (.refl _) rfl rfl rfl) fun _ => ?_
    refine triple_bind (tri_modParked ⟨rfl, rfl, rfl, rfl, fun _ h => h⟩ rfl rfl rfl) fun _ => ?_
    refine tri_readThen (.and stable_ctx stable_parked) (fun _ _ h => h.2.held.page) ?_
    refine triple_bind (tri_writeCmdLine ht rfl rfl) fun esp => ?_
    refine triple_bind tri_frameUnlock fun _ => triple_ret fun w _ hw => ?_
    have hst : HasStack t c.proc w := ⟨(c1.forget p).setOwn p
      { r0 with frame := some f, readOnly := false, priv := false }, p, _,
      ⟨rfl, hg, update_self .., rfl, rfl⟩, hw⟩
    exact ⟨hst.base, fun _ => hst⟩

/-! ## load -/

def Known.setTable (c : Known) (T : Option PageTable) : Known := { c with table := T }

/-- A process without pages gets a table. -/
theorem ctx_setTable (hi : Inv G w) (hc : Ctx t c w) (hn : c.proc.status ≠ .new) (hE : elemsOf c.table = [])
    {T : Option PageTable} (hT : elemsOf T = []) :
    MovesTo G t w ⟨w.st.setTable t T, w.aux⟩ (Ctx t (c.setTable T)) := by
  obtain ⟨h1, h2⟩ := step_setTable hi (u := t) (T := T) (by rw [St.table, hc.table, hE])
    (by rw [hc.proc]; exact hn) hT
  refine ⟨h1, h2, hc.proc, update_self .., hc.own, hc.off, ?_⟩
  intro q hq
  simp [Known.setTable, hT] at hq

theorem opens_bin (hi : Inv G w) (hg : w.st.files g = none) (hb : (w.st.procs t).binFile = none) :
    Opens w.st.procs (update w.st.procs t { w.st.procs t with binFile := some g }) t g := by
  have hsame : ∀ u, (update w.st.procs t { w.st.procs t with binFile := some g } u).fds =
      (w.st.procs u).fds := by
    intro u
    by_cases hu : u = t
    · subst hu; simp
    · simp [hu]
  constructor
  case fds => exact fun h => .inl (hsame _ ▸ h)
  case nodup => exact fun u => hsame u ▸ hi.file.fdNodup u
  case bin =>
    intro u g0 h
    by_cases hu : u = t
    · subst hu
      obtain rfl : g = g0 := by simpa using h
      exact .inr ⟨rfl, rfl, fun fd hfd => hi.file.fd_ne hg (hsame u ▸ hfd)⟩
    · exact .inl (by simpa [hu] using h)
  case binOld =>
    intro u g0 h
    have hu : u ≠ t := by rintro rfl; simp [hb] at h
    simpa [hu] using h
  case map =>
    intro u m M h1 h2
    by_cases hu : u = t
    · subst hu; exact ⟨by simpa using h1, by simpa using h2⟩
    · exact ⟨by simpa [hu] using h1, by simpa [hu] using h2⟩

/-- The executable is opened. -/
theorem tri_openBinFile {name : List Byte} (hl : Loading c) (hb : c.proc.binFile = none) :
    Tri G t (Ctx t c) (openBinFile name) fun o w =>
      ∃ c', (Loading c' ∧ c'.proc.binFile = o) ∧ Ctx t c' w := by
  refine triple_act rfl (fun o => .exists fun _ => .and (.const _) stable_ctx)
    fun w hi hw e _ => ?_
  have hbw : (w.st.procs t).binFile = none := by rw [hw.proc]; exact hb
  have hnw : (w.st.procs t).status ≠ .new := by rw [hw.proc]; exact hl.ne
  -- `bin_file` was `NULL` and is set to `NULL`
  have hnone : MovesTo G t w ⟨w.st.setProc t { w.st.procs t with binFile := none }, w.aux⟩ fun w =>
      ∃ c', (Loading c' ∧ c'.proc.binFile = none) ∧ Ctx t c' w := by
    have : { w.st.procs t with binFile := none } = w.st.procs t := by rw [← hbw]
    rw [this, St.setProc, update_eq_self]
    exact stays hi ⟨c, ⟨hl, hb⟩, hw⟩
  dsimp only
  cases hd : w.st.dir name with
  | none => exact hnone
  | some i =>
    cases e with
    | none => exact hnone
    | some g =>
      dsimp only
      by_cases hg : (w.st.files g).isNone
      · simp only [hg, if_true]
        have hg' : w.st.files g = none := by simpa using hg
        have hP := procOk_same hi (Q := { w.st.procs t with binFile := some g }) hnw rfl rfl fun _ _ => rfl
        obtain ⟨h1, h2⟩ := step_open (i := i) hi hg' hP (opens_bin hi hg' hbw)
        refine ⟨h1, h2, c.setProc { w.st.procs t with binFile := some g }, ⟨⟨?_, hl.gone⟩, rfl⟩,
          hw.setProc (update_self ..) rfl rfl rfl⟩
        simp only [Known.setProc, hw.proc]
        exact hl.status
      · simp only [hg, Bool.false_eq_true, if_false]

/-- `file_deny_write` on the executable. -/
theorem tri_fileDenyWrite (hl : Loading c) (hb : c.proc.binFile = some g) :
    Tri G t (Ctx t c) (fileDenyWrite g) fun _ => LoadCtx t g := by
  refine triple_act rfl (fun _ => stable_loadCtx) fun w hi hw e _ => ?_
  have hbw : (w.st.procs t).binFile = some g := by rw [hw.proc]; exact hb
  obtain ⟨F, hF⟩ := Option.isSome_iff_exists.1 (hi.file.bin hbw).1
  simp only [hF]
  cases hd : F.denyWrite with
  | true =>
    simp only [if_true]
    exact stays hi ⟨c, hl, hw, hbw, F, hF, hd⟩
  | false =>
    simp only [Bool.false_eq_true, if_false]
    by_cases hcnt : (w.st.inodes F.inode).denyWriteCnt + 1 ≤ (w.st.inodes F.inode).openCnt
    · rw [if_pos hcnt]
      obtain ⟨h1, h2⟩ := step_deny hi (by rw [hw.proc]; exact hl.ne) hbw hF hd
      exact ⟨h1, h2, c, hl, ⟨hw.proc, hw.table, hw.own, hw.off, hw.gone⟩, hbw, _, update_self .., rfl⟩
    · rw [if_neg hcnt]
      exact tol_assertion

/-- The result of `load`. -/
def LoadResult (t : Tid) (o : Option Nat) (w : W) : Prop :=
  ∃ P : Proc, P.status = .loading ∧ Base t P w ∧ (o.isSome → HasStack t P w)

theorem tri_loadFile : Tri G t (LoadCtx t g) (loadFile g cmdLine) (LoadResult t) := by
  have hnone : Tri G t (LoadCtx t g) (pure none) (LoadResult t) := triple_ret fun w _ ⟨c, hl, hc, _⟩ =>
    ⟨c.proc, hl.status, hc.base hl.gone, nofun⟩
  unfold loadFile
  refine triple_bind tri_fileRead fun ehdr => tri_ite (fun _ => ?_) fun _ => hnone
  refine triple_bind (tri_phdrLoop _ _) fun ok => tri_ite (fun _ => ?_) fun _ => hnone
  refine triple_exists fun c => triple_pure fun hl => ?_
  exact triple_conseq (tri_setupStack hl) (fun w _ hw => hw.1) fun o w _ hw => ⟨c.proc, hl.status, hw⟩

/-- **load.** -/
theorem tri_load (hl : Loading c) (hT : elemsOf c.table = [])
    (hb : c.proc.binFile = none) : Tri G t (Ctx t c) (load cmdLine) (LoadResult t) := by
  have hnone : ∀ c', Loading c' → Tri G t (Ctx t c') (pure none) (LoadResult t) := fun c' hl' =>
    triple_ret fun w _ hc => ⟨c'.proc, hl'.status, hc.base hl'.gone, fun h => by cases h⟩
  unfold load
  refine triple_bind (R := fun _ => Ctx t c) (triple_act rfl (fun _ => stable_ctx) fun w hi hw e _ => ?_)
    fun ok => tri_ite (fun _ => ?_) fun _ => hnone c hl
  · have hs := step_setPagedir (D := e.map fun _ => .empty) hi (u := t) (by rw [St.table, hw.table, hT])
      (by rw [hw.proc]; exact hl.ne) fun a => by cases e <;> rfl
    exact ⟨hs.inv, hs.keep, hw.step hi hs⟩
  refine triple_bind (R := fun _ w => ∃ T, elemsOf T = [] ∧ Ctx t (c.setTable T) w)
    (triple_act rfl (fun _ => .exists fun _ => .and (.const _) stable_ctx) fun w hi hw e _ => ?_)
    fun ok => triple_exists fun T => triple_pure fun hT1 =>
      tri_ite (fun _ => ?_) fun _ => hnone _ ⟨hl.status, hl.gone⟩
  · have hE : elemsOf (e.map fun _ => (⟨false, []⟩ : PageTable)) = [] := by cases e <;> rfl
    obtain ⟨h1, h2, h3⟩ := ctx_setTable hi hw hl.ne hT hE
    exact ⟨h1, h2, _, hE, h3⟩
  refine triple_bind (R := fun _ w => ∃ T, elemsOf T = [] ∧ Ctx t (c.setTable T) w)
    (triple_act rfl (fun _ => .exists fun _ => .and (.const _) stable_ctx) fun w hi hw e _ => ?_)
    fun ok => triple_exists fun T => triple_pure fun _ => ?_
  · have hE : elemsOf ((w.st.tables t).map fun _ => (⟨e.isSome, []⟩ : PageTable)) = [] := by
      cases w.st.tables t <;> rfl
    obtain ⟨h1, h2, h3⟩ := ctx_setTable hi hw hl.ne hT1 hE
    exact ⟨h1, h2, _, hE, h3⟩
  refine triple_bind (tri_openBinFile (c := c.setTable T) ⟨hl.status, hl.gone⟩ hb) fun o =>
    triple_exists fun c2 => triple_pure fun h2 => ?_
  obtain ⟨hl2, hb2⟩ := h2
  cases o with
  | none => exact hnone c2 hl2
  | some g => exact triple_bind (tri_fileDenyWrite hl2 hb2) fun _ => tri_loadFile

/-- **start_process.** -/
theorem tri_startProcess :
    Tri G t (fun w => (w.st.procs t).status = .new) (startProcess cmdLine) fun _ => AtRest t := by
  unfold startProcess
  refine triple_bind (R := fun _ w => ∃ c, (Loading c ∧ elemsOf c.table = [] ∧ c.proc.binFile = none) ∧
    Ctx t c w) (triple_act rfl (fun _ => .exists fun _ => .and (.const _) stable_ctx) fun w hi hw e _ => ?_)
    fun _ => triple_exists fun c => triple_pure fun ⟨hl, hE, hb⟩ => ?_
  · obtain ⟨h1, h2, h3⟩ := hi.fresh t hw
    dsimp only
    rw [h1]
    obtain ⟨g1, g2⟩ := step_proc hi (u := t) (Q := { Proc.init with status := .loading })
      ⟨nofun, fun _ => by rw [hw]; exact ⟨nofun, nofun⟩, ⟨nofun, List.nodup_nil, nofun⟩, nofun⟩
      (by rw [h1]) (by rw [h1]) nofun
    refine ⟨g1, g2, ⟨{ Proc.init with status := .loading }, none, fun _ => none, fun _ => False, none⟩,
      ⟨⟨rfl, rfl⟩, rfl, rfl⟩, ?_, h2, nofun, nofun, nofun⟩
    exact update_self ..
  refine triple_bind (tri_load hl hE hb) fun o => triple_exists fun P => triple_pure fun hP => ?_
  have hn : P.status ≠ .new := by rw [hP]; exact nofun
  cases o with
  | none => exact triple_pre (tri_threadExit hn) fun w _ hw => hw.1
  | some esp =>
    refine triple_bind (R := fun _ => HasStack t P) (triple_act rfl (fun _ => stable_hasStack) fun w hi hw _ _ =>
      stays hi (hw.2 rfl)) fun ok => tri_ite (fun _ => ?_) fun _ => ?_
    · refine triple_act rfl (fun _ => stable_atRest) fun w hi hw e _ => ?_
      have hrest := hw.base.atRest
      obtain ⟨c', p, r, ⟨h1, h2, h3, h4, h5⟩, hc⟩ := hw
      obtain ⟨r', g1, g2, g3⟩ := hc.own p r h3
      have hmem := hi.table.owned g1
      rw [g3] at hmem
      have hstat : (w.st.procs t).status = .loading := by rw [hc.proc, h1]; exact hP
      obtain ⟨k1, k2⟩ := step_proc hi (u := t) (Q := { w.st.procs t with status := .running })
        ⟨nofun, fun _ => by rw [hstat]; exact ⟨nofun, nofun⟩, (hi.map.at t).congr rfl rfl,
          fun _ _ => ⟨p, r', hmem, g1, g2.addr.trans h4, g2.isMmap.trans h5⟩⟩ rfl rfl
        fun m M hm hM => hi.file.map hm hM
      exact ⟨k1, k2, hrest⟩
    · exact triple_pre (tri_threadExit hn) fun w _ hw => hw.base

end Pintos.Vm
