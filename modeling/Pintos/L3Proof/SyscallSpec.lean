import Pintos.L3Proof.FreeSpec

/-!
# Specifications of userprog/syscall.c and of the end of a process

Descriptors, memory mappings, `thread_exit`. A mapping on the list of a
process covers mmap pages of its table; `unmap` takes it off the list first,
so the pages it then frees belong to no mapping any more.
-/
namespace Pintos.Vm

open Pintos.Core Function List Logic

variable {G : Goals} {t : Tid} {c : Known} {f : FrameId} {p : PageId} {r : Page} {w w' : W}

/-! ## The record of the process -/

def Known.setProc (c : Known) (P : Proc) : Known := { c with proc := P }

/-- A step on files and on the process's own record. -/
theorem Ctx.setProc (h : Ctx t c w) {s' : St} {P' : Proc} (hP : s'.procs t = P')
    (hT : s'.tables t = w.st.tables t) (hp : s'.pages = w.st.pages) (hd : s'.pagedirs = w.st.pagedirs) :
    Ctx t (c.setProc P') ⟨s', w.aux⟩ where
  proc := hP
  table := hT.trans h.table
  own := by rw [hp]; exact h.own
  off := by simp only [St.pte, hd]; exact h.off
  gone := h.gone

/-- A new record with the same status, descriptors, executable and mappings. -/
theorem ctx_procSame (hi : Inv G w) (hc : Ctx t c w) {Q : Proc} (hn : c.proc.status ≠ .new)
    (hs : Q.status = c.proc.status) (hfds : Q.fds = c.proc.fds) (hbin : Q.binFile = c.proc.binFile)
    (hm : Q.mappings = c.proc.mappings) (hM : ∀ m ∈ Q.mappings, Q.maps m = c.proc.maps m) :
    MovesTo G t w ⟨w.st.setProc t Q, w.aux⟩ (Ctx t (c.setProc Q)) := by
  rw [← hc.proc] at hn hs hfds hbin hm hM
  obtain ⟨h1, h2⟩ := step_proc hi (procOk_same hi hn hs hm hM) hfds hbin fun m M hm' hM' =>
    hi.file.map (hm ▸ hm') ((hM m hm').symm.trans hM')
  exact ⟨h1, h2, hc.setProc (by simp) rfl rfl rfl⟩

theorem tri_modProcSame {g : Proc → Proc} (hn : c.proc.status ≠ .new)
    (hs : (g c.proc).status = c.proc.status) (hfds : (g c.proc).fds = c.proc.fds)
    (hbin : (g c.proc).binFile = c.proc.binFile) (hm : (g c.proc).mappings = c.proc.mappings)
    (hM : ∀ m ∈ (g c.proc).mappings, (g c.proc).maps m = c.proc.maps m) :
    Tri G t (Ctx t c) (modProc g) fun _ => Ctx t (c.setProc (g c.proc)) :=
  triple_act rfl (fun _ => stable_ctx) fun w hi hw e _ => by
    rw [← hw.proc] at hs hfds hbin hm hM ⊢
    exact ctx_procSame hi hw hn (hs.trans (by rw [hw.proc])) (hfds.trans (by rw [hw.proc]))
      (hbin.trans (by rw [hw.proc])) (hm.trans (by rw [hw.proc])) fun m hm' => by
        rw [hM m hm', hw.proc]

/-- `process_exit` begins, or ends. -/
theorem tri_setStatus {x : Status} (hx : x ≠ .new) (hal : ¬x.alive) :
    Tri G t (Ctx t c) (modProc fun P => { P with status := x }) fun _ =>
      Ctx t (c.setProc { c.proc with status := x }) := by
  refine triple_act rfl (fun _ => stable_ctx) fun w hi hw e _ => ?_
  have hrun : x ≠ .running := by
    rintro rfl
    exact hal ⟨nofun, nofun⟩
  have hmaps := (hi.map.at t).congr (Q := { w.st.procs t with status := x }) rfl rfl
  obtain ⟨h1, h2⟩ := step_proc hi (Q := { w.st.procs t with status := x })
    ⟨hx, fun h => absurd h hal, hmaps, fun _ h => absurd h hrun⟩ rfl rfl
    fun m M hm hM => hi.file.map hm hM
  refine ⟨h1, h2, hw.setProc ?_ rfl rfl rfl⟩
  simp [hw.proc]

/-! ## Locks other than those of frames -/

theorem tri_acquireFs {P : W → Prop} (hP : (logic G).Stable t P)
    (h : ∀ w, P w → P ⟨w.st.setLock .fs (some t), w.aux⟩) :
    Tri G t P (lockAcquire .fs) fun _ => P :=
  tri_lockAcquire hP fun w _ hw _ => h w hw

theorem tri_releaseFs {P : W → Prop} (hP : (logic G).Stable t P)
    (h : ∀ w, P w → P ⟨w.st.setLock .fs none, w.aux⟩) :
    Tri G t P (lockRelease .fs) fun _ => P :=
  tri_lockRelease hP fun w _ hw _ => ⟨nofun, h w hw⟩

theorem Ctx.setLock (h : Ctx t c w) {l : Lock} {o : Option Tid} : Ctx t c ⟨w.st.setLock l o, w.aux⟩ :=
  ⟨h.proc, h.table, h.own, h.off, h.gone⟩

theorem tri_acquireFsCtx : Tri G t (Ctx t c) (lockAcquire .fs) fun _ => Ctx t c :=
  tri_acquireFs stable_ctx fun _ h => h.setLock

theorem tri_releaseFsCtx : Tri G t (Ctx t c) (lockRelease .fs) fun _ => Ctx t c :=
  tri_releaseFs stable_ctx fun _ h => h.setLock

/-! ## Descriptors -/

variable {g : FileId} {P : Proc} {m : Nat} {M : Mapping}

theorem opens_fd (hi : Inv G w) (hg : w.st.files g = none) {P' : Proc} {h : Int}
    (hfds : P'.fds = ⟨g, h⟩ :: (w.st.procs t).fds) (hbin : P'.binFile = (w.st.procs t).binFile)
    (hm : P'.mappings = (w.st.procs t).mappings) (hM : P'.maps = (w.st.procs t).maps) :
    Opens w.st.procs (update w.st.procs t P') t g where
  fds := by
    intro u fd hfd
    by_cases hu : u = t
    · subst hu
      simp only [update_self, hfds, mem_cons] at hfd
      exact hfd.symm.imp_right fun h => ⟨rfl, by rw [h]⟩
    · exact .inl (by simpa [hu] using hfd)
  nodup := by
    intro u
    by_cases hu : u = t
    · subst hu
      simp only [update_self, hfds, map_cons, nodup_cons]
      refine ⟨fun hmem => ?_, hi.file.fdNodup u⟩
      obtain ⟨fd, h1, h2⟩ := mem_map.1 hmem
      exact hi.file.fd_ne hg h1 h2
    · simpa [hu] using hi.file.fdNodup u
  bin := by
    intro u g0 hb
    by_cases hu : u = t
    · subst hu; exact .inl (by simpa [hbin] using hb)
    · exact .inl (by simpa [hu] using hb)
  binOld := by
    intro u g0 hb
    by_cases hu : u = t
    · subst hu; simpa [hbin] using hb
    · simpa [hu] using hb
  map := by
    intro u m M h1 h2
    by_cases hu : u = t
    · subst hu
      simp only [update_self, hm, hM] at h1 h2
      exact ⟨h1, h2⟩
    · simp only [update_of_ne hu] at h1 h2
      exact ⟨h1, h2⟩

/-- **open.** -/
theorem tri_sysOpen {name : List Byte} (hn : c.proc.status ≠ .new) (hgone : c.gone = none) :
    Tri G t (Ctx t c) (sysOpen name) fun _ => AtRest t := by
  unfold sysOpen
  refine triple_bind tri_acquireFsCtx fun _ => ?_
  refine triple_bind (R := fun _ w => ∃ c', c'.gone = none ∧ Ctx t c' w)
    (triple_act rfl (fun _ => .exists fun _ => .and (.const _) stable_ctx) fun w hi hw e _ => ?_)
    fun h => triple_exists fun c' => triple_pure fun hg' => ?_
  · dsimp only
    cases hd : w.st.dir name with
    | none => exact stays hi ⟨c, hgone, hw⟩
    | some i =>
      cases e with
      | none => exact stays hi ⟨c, hgone, hw⟩
      | some g =>
        by_cases hg : (w.st.files g).isNone
        · simp only [hg, if_true]
          have hg' : w.st.files g = none := by simpa using hg
          have hnw : (w.st.procs t).status ≠ .new := hw.proc ▸ hn
          let P' : Proc := { w.st.procs t with
            nextHandle := (w.st.procs t).nextHandle + 1
            fds := ⟨g, (w.st.procs t).nextHandle⟩ :: (w.st.procs t).fds }
          have hP : ProcOk G w t P' := procOk_same hi hnw rfl rfl fun _ _ => rfl
          obtain ⟨h1, h2⟩ := step_open (i := i) hi hg' hP (opens_fd hi hg' rfl rfl rfl rfl)
          exact ⟨h1, h2, c.setProc P', hgone, hw.setProc (update_self ..) rfl rfl rfl⟩
        · simp only [hg, Bool.false_eq_true, if_false]
  · exact triple_bind tri_releaseFsCtx fun _ => triple_ret fun _ _ hw => hw.atRest hg'

/-- `file_close (fd->file)` and the removal of `fd`. -/
theorem tri_closeLocked {fd : FileDescriptor} (hn : c.proc.status ≠ .new) (hfd : fd ∈ c.proc.fds) :
    Tri G t (Ctx t c) (closeLocked fd) fun _ =>
      Ctx t (c.setProc { c.proc with fds := c.proc.fds.erase fd }) := by
  unfold closeLocked
  refine triple_bind tri_acquireFsCtx fun _ => ?_
  refine triple_bind (triple_act rfl (fun _ => stable_ctx) fun w hi hw e _ => ?_)
    fun _ => tri_releaseFsCtx
  rw [← hw.proc] at hn hfd
  obtain ⟨F, hF, -⟩ := hi.file.fd hfd
  simp only [hF]
  cases hc : closeFile w.st fd.file F with
  | none => exact tol_assertion
  | some s' =>
    have hP := procOk_same hi (Q := { w.st.procs t with fds := (w.st.procs t).fds.erase fd }) hn rfl rfl
      fun _ _ => rfl
    obtain ⟨h1, h2⟩ := step_close hi hF hc hP (closes_fd hi hfd) fun u g0 _ hb he =>
      (hi.file.bin hb).2 t fd hfd he.symm
    refine ⟨h1, h2, ?_⟩
    obtain ⟨n', rfl, -⟩ := closeFile_some hc
    exact hw.setProc (by simp [hw.proc]) rfl rfl rfl

theorem tri_closeAll (l : List FileDescriptor) (hn : c.proc.status ≠ .new) (hl : c.proc.fds = l) :
    Tri G t (Ctx t c) (closeAll l) fun _ => Ctx t (c.setProc { c.proc with fds := [] }) := by
  induction l generalizing c with
  | nil =>
    refine triple_ret fun w _ hw => ?_
    have : c.setProc { c.proc with fds := [] } = c := by rw [← hl]; rfl
    rwa [this]
  | cons fd l ih =>
    refine triple_bind (tri_closeLocked hn (by simp [hl])) fun _ => ?_
    exact ih (c := c.setProc { c.proc with fds := c.proc.fds.erase fd }) hn (by simp [Known.setProc, hl])

/-! ## unmap -/

theorem stable_kept : (logic G).Stable t fun w => Kept w.st.files w.st.procs g :=
  stable_of_keep fun _ _ _ _ hk h => hk.kept g h

/-- Address of page `i` of a mapping. -/
def Mapping.addr (M : Mapping) (i : Nat) : Nat := u32 (M.base + pgSize * i)

/-- The pages of `M` from page `i` on belong to no mapping on the list, and
are still there. -/
structure Unmapping (c : Known) (M : Mapping) (i : Nat) : Prop where
  gone : c.gone = none
  page : ∀ j, i ≤ j → j < M.pageCnt → ∃ p r0, c.own p = some r0 ∧ r0.addr = M.addr j ∧
    r0.isMmap = true ∧ pgOfs r0.addr = 0 ∧ r0.addr ∉ c.proc.covered
  inj : ∀ j k, j < M.pageCnt → k < M.pageCnt → M.addr j = M.addr k → j = k

/-- All pages of the process are known. -/
def Known.all (c : Known) (t : Tid) (s : St) : Known :=
  { c with own := fun p => (s.pages p).filter fun r => r.thread = t }

theorem Ctx.all (h : Ctx t c w) : Ctx t (c.all t w.st) w := { h with
  own := by
    intro p r0 hp
    obtain ⟨h1, h2⟩ := Option.filter_eq_some_iff.1 hp
    exact ⟨r0, h1, .refl r0, by simpa using h2⟩ }

/-- The process without mapping `m` on its list. -/
def Proc.unlink (P : Proc) (m : Nat) : Proc := { P with mappings := P.mappings.erase m }

theorem covered_split (hm : m ∈ P.mappings) (hM : P.maps m = some M) :
    P.covered.Perm (M.addrs ++ (P.unlink m).covered) := by
  have h1 : P.mappings.Perm (m :: P.mappings.erase m) := perm_cons_erase hm
  have h2 := h1.flatMap_right fun m => ((P.maps m).map Mapping.addrs).getD []
  simpa [Proc.covered, Proc.unlink, hM] using h2

/-- **A mapping is taken off the list.** -/
theorem tri_unlink (hn : c.proc.status ≠ .new) (hg : c.gone = none) (hm : m ∈ c.proc.mappings) :
    Tri G t (Ctx t c) (modProc fun P => P.unlink m) fun _ w =>
      ∃ c' M g, (c'.proc = c.proc.unlink m ∧ c.proc.maps m = some M ∧ M.file = some g ∧
        Unmapping c' M 0) ∧ Ctx t c' w ∧ Kept w.st.files w.st.procs g := by
  refine triple_act rfl (fun _ => .exists fun _ => .exists fun _ => .exists fun _ =>
    .and (.const _) (.and stable_ctx stable_kept)) fun w hi hw e _ => ?_
  have hPw := hw.proc
  obtain ⟨M, hM⟩ := Option.isSome_iff_exists.1 (hi.map.live (t := t) (m := m) (hPw ▸ hm))
  obtain ⟨g, hMg, hk⟩ := hi.file.map (hPw ▸ hm) hM
  rw [hPw] at hM
  have hperm := covered_split hm hM
  have hok := hi.map.at t
  rw [hPw] at hok
  obtain ⟨hnd, hnd', hdisj⟩ := nodup_append.1 (hperm.nodup_iff.1 hok.nodup)
  have hmaps : MapsOk (c.proc.unlink m) (w.st.table t) w.st.pages :=
    ⟨fun m' hm' => hok.live m' (mem_of_mem_erase hm'), hnd',
      fun a ha => hok.page a (hperm.mem_iff.2 (mem_append_right _ ha))⟩
  obtain ⟨h1, h2⟩ := step_proc hi (u := t) (Q := c.proc.unlink m)
    ⟨hn, fun h => hPw ▸ h, hmaps, fun hG hr => (hi.range hG).stack (hPw ▸ hr)⟩ (by rw [hPw]; rfl)
    (by rw [hPw]; rfl) fun m' M' hm' hM' =>
      hi.file.map (by rw [hPw]; exact mem_of_mem_erase hm') (by rw [hPw]; exact hM')
  simp only [hPw]
  have hc' : Ctx t (c.setProc (c.proc.unlink m)) ⟨w.st.setProc t (c.proc.unlink m), w.aux⟩ :=
    hw.setProc (update_self ..) rfl rfl rfl
  refine ⟨h1, h2, (c.setProc (c.proc.unlink m)).all t w.st, M, g,
    ⟨rfl, hM, hMg, hg, fun j _ hj => ?_, fun j k hj hk' he => ?_⟩, hc'.all, ?_⟩
  · have haj : M.addr j ∈ M.addrs := mem_map.2 ⟨j, mem_range.2 hj, rfl⟩
    obtain ⟨q, r, h3, h4, h5, h6⟩ := hok.page _ (hperm.mem_iff.2 (mem_append_left _ haj))
    have hth := thread_of_mem (t := t) hi h4 h3
    refine ⟨q, r, Option.filter_eq_some_iff.2 ⟨h4, by simpa using hth⟩, h5, h6, hi.table.aligned h4, ?_⟩
    rw [h5]
    exact fun hmem => hdisj _ haj _ hmem rfl
  · exact inj_on_of_nodup_map hnd (mem_range.2 hj) (mem_range.2 hk') he
  · refine (kept_congr fun u => ?_).2 hk
    by_cases hu : u = t
    · subst hu; simp [Logic.next, Proc.unlink, hPw]
    · simp [Logic.next, hu]

theorem tri_readMap {P : W → Prop} {α : Type} {k : Mapping → K α} {Q : α → W → Prop}
    (hP : (logic G).Stable t P) (h : ∀ w, P w → (w.st.procs t).maps m = some M)
    (hk : Tri G t P (k M) Q) : Tri G t P (readMap m >>= k) Q := by
  refine triple_bind (R := fun M' w => M' = M ∧ P w) (triple_act rfl (fun _ => .and (.const _) hP)
    fun w hi hw e _ => ?_) fun M' => triple_pure ?_
  · simp only [h w hw]
    exact stays hi ⟨trivial, hw⟩
  · rintro rfl; exact hk

/-- `file_write_at` from the memory of the process. -/
theorem tri_fileWriteUser {P : W → Prop} {src ofs : Nat} {size : Int}
    (hP : (logic G).Stable t P) (hopen : ∀ w, Inv G w → P w → (w.st.files g).isSome)
    (hw : ∀ w i n, Inv G w → (w.st.inodes i).denyWriteCnt = 0 → P w → P ⟨w.st.setInode i n, w.aux⟩) :
    Tri G t P (fileWriteUser g src size ofs) fun _ => P := by
  refine triple_act rfl (fun _ => hP) fun w hi hPw e _ => ?_
  obtain ⟨F, hF⟩ := Option.isSome_iff_exists.1 (hopen w hi hPw)
  simp only [hF]
  by_cases h0 : (w.st.inodes F.inode).denyWriteCnt = 0
  · simp only [h0, ne_eq, not_true, if_false]
    by_cases hall : ((range (transferred ofs (inFile (w.st.inodes F.inode) size ofs) e.isSome)).all
        fun o => (kernelByte w.st t (u32 (src + o))).isSome) = true
    · rw [if_pos hall]
      have hs := step_write (u := t) hi (n := (w.st.inodes F.inode).write ofs
        (transferred ofs (inFile (w.st.inodes F.inode) size ofs) e.isSome)
        fun o => (kernelByte w.st t (u32 (src + o))).getD 0) h0 rfl rfl
      exact ⟨hs.inv, hs.keep, hw w _ _ hi h0 hPw⟩
    · rw [if_neg hall]
      exact tol_kernelFault
  · simp only [ne_eq, h0, not_false_eq_true, if_true]
    exact stays hi hPw

theorem tri_writeLoop (hg : M.file = some g) (n i : Nat) :
    Tri G t (fun w => Ctx t c w ∧ Kept w.st.files w.st.procs g) (writeLoop M n i)
      fun _ w => Ctx t c w ∧ Kept w.st.files w.st.procs g := by
  have hst := (stable_ctx (G := G) (t := t) (c := c)).and (stable_kept (g := g))
  induction n generalizing i with
  | zero => exact triple_ret fun _ _ h => h
  | succ n ih =>
    refine triple_bind (R := fun _ w => Ctx t c w ∧ Kept w.st.files w.st.procs g)
      (triple_act rfl (fun _ => hst) fun w hi hw e _ => ?_) fun b => ?_
    · dsimp only
      cases w.st.pagedirs (id t) with
      | none => exact tol_assertion
      | some pd => exact stays hi hw
    refine triple_bind (R := fun _ w => Ctx t c w ∧ Kept w.st.files w.st.procs g)
      (tri_doIf (fun _ => ?_) fun _ _ _ h => h) fun _ => ih (i + 1)
    simp only [writeBack, hg]
    refine triple_bind (tri_fileWriteUser hst (fun w _ hw => hw.2.1) fun w i n _ _ hw => ?_) fun _ =>
      triple_ret fun _ _ h => h
    exact ⟨⟨hw.1.proc, hw.1.table, hw.1.own, hw.1.off, hw.1.gone⟩, hw.2⟩

theorem pgRoundDown_of_aligned {a : Nat} (h : pgOfs a = 0) : pgRoundDown a = a := by
  simp only [pgRoundDown, pgOfs, pgSize] at *; omega

theorem tri_deallocLoop (n i : Nat) (hi : i + n = M.pageCnt) (hu : Unmapping c M i) :
    Tri G t (Ctx t c) (deallocLoop M n i) fun _ => Base t c.proc := by
  induction n generalizing c i with
  | zero => exact triple_ret fun w _ hw => hw.base hu.gone
  | succ n ih =>
    obtain ⟨p, r0, h1, h2, h3, h4, h5⟩ := hu.page i (le_refl i) (by omega)
    refine triple_bind (tri_pageDeallocate h1 hu.gone h3 ?_ h5) fun _ => ih (c := c.erase p) (i + 1) (by omega) ?_
    · show r0.addr = pgRoundDown (M.addr i)
      rw [← h2, pgRoundDown_of_aligned h4]
    · refine ⟨rfl, fun j hj hjn => ?_, hu.inj⟩
      obtain ⟨q, r1, g1, g2, g3, g4, g5⟩ := hu.page j (by omega) hjn
      have hqp : q ≠ p := by
        rintro rfl
        obtain rfl := Option.mem_unique h1 g1
        have := hu.inj i j (by omega) hjn (h2.symm.trans g2)
        omega
      exact ⟨q, r1, by simpa [Known.erase, hqp] using g1, g2, g3, g4, g5⟩

/-- **unmap** of a mapping of the process. -/
theorem tri_unmap (hn : c.proc.status ≠ .new) (hg : c.gone = none) (hm : m ∈ c.proc.mappings) :
    Tri G t (Ctx t c) (unmap m) fun _ =>
      Base t (c.proc.unlink m) := by
  unfold unmap
  refine triple_bind (tri_unlink hn hg hm) fun _ => triple_exists fun c' => triple_exists fun M =>
    triple_exists fun g => triple_pure ?_
  rintro ⟨hproc, hM, hMg, hu⟩
  rw [← hproc]
  refine tri_readMap (M := M) (.and stable_ctx stable_kept) (fun w hw => ?_) ?_
  · rw [hw.1.proc, hproc]; exact hM
  refine triple_bind (tri_writeLoop hMg M.pageCnt 0) fun _ => ?_
  exact triple_pre (tri_deallocLoop M.pageCnt 0 (by omega) hu) fun w _ hw => hw.1

theorem tri_unmapAll (ms : List Nat) (hn : P.status ≠ .new) (hms : P.mappings = ms) :
    Tri G t (Base t P) (unmapAll ms) fun _ => Base t { P with mappings := [] } := by
  induction ms generalizing P with
  | nil =>
    refine triple_ret fun w _ hw => ?_
    have : { P with mappings := [] } = P := by rw [← hms]
    rwa [this]
  | cons m ms ih =>
    refine triple_exists fun c => triple_pure ?_
    rintro ⟨rfl, hg⟩
    refine triple_bind (tri_unmap hn hg (by simp [hms])) fun _ => ?_
    exact ih (P := c.proc.unlink m) hn (by simp [Proc.unlink, hms])

/-! ## The end of a process -/

/-- `file_close (cur->bin_file)` once the pages are gone. -/
theorem tri_closeBinFile (hn : c.proc.status ≠ .new) (hE : elemsOf c.table = []) :
    Tri G t (Ctx t c) closeBinFile fun _ => Ctx t (c.setProc { c.proc with binFile := none }) := by
  refine triple_act rfl (fun _ => stable_ctx) fun w hi hw e _ => ?_
  have hPw := hw.proc
  dsimp only
  cases hb : (w.st.procs t).binFile with
  | none =>
    have : c.setProc { c.proc with binFile := none } = c := by
      rw [hPw] at hb
      rw [← hb]; rfl
    rw [this]
    exact stays hi hw
  | some g =>
    obtain ⟨F, hF⟩ := Option.isSome_iff_exists.1 (hi.file.bin hb).1
    simp only [hF]
    cases hc : closeFile w.st g F with
    | none => exact tol_assertion
    | some s' =>
      have hP := procOk_same hi (Q := { w.st.procs t with binFile := none }) (hPw ▸ hn) rfl rfl
        fun _ _ => rfl
      have hE' : w.st.table t = [] := by rw [St.table, hw.table, hE]
      obtain ⟨h1, h2⟩ := step_close hi hF hc hP (closes_bin hi hE' hb) fun u g0 hu hb' he =>
        hu (hi.file.binOwner hb' (he ▸ hb))
      refine ⟨h1, h2, ?_⟩
      obtain ⟨n', rfl, -⟩ := closeFile_some hc
      exact hw.setProc (by simp [hPw]) rfl rfl rfl

theorem tri_syscallExit (hn : P.status ≠ .new) :
    Tri G t (Base t P) syscallExit fun _ => Base t { P with fds := [], mappings := [] } := by
  unfold syscallExit
  refine triple_exists fun c => triple_pure ?_
  rintro ⟨rfl, hg⟩
  refine triple_bind (R := fun l w => l = c.proc.fds ∧ Ctx t c w)
    (tri_rd (fun _ => .and (.const _) stable_ctx) fun w _ hw => ⟨by rw [hw.proc], hw⟩) fun l =>
      triple_pure fun hl => ?_
  refine triple_bind (tri_closeAll l hn hl.symm) fun _ => ?_
  refine triple_bind (R := fun ms w => ms = c.proc.mappings ∧ Base t { c.proc with fds := [] } w)
    (tri_rd (fun _ => .and (.const _) stable_base) fun w _ hw => ⟨?_, hw.base hg⟩) fun ms =>
      triple_pure fun hms => ?_
  · rw [hw.proc]; rfl
  · exact tri_unmapAll ms (P := { c.proc with fds := [] }) hn hms.symm

/-- **process_exit** of a process without mappings. -/
theorem tri_processExit (hm : P.mappings = []) :
    Tri G t (Base t P) processExit fun _ w => ∃ c, c.gone = none ∧ Ctx t c w := by
  unfold processExit
  have hal : ¬Status.alive .exiting := fun h => h.1 rfl
  refine triple_exists fun c => triple_pure ?_
  rintro ⟨rfl, hg⟩
  refine triple_bind (tri_setStatus (fun h => by cases h) hal) fun _ => ?_
  refine triple_bind (tri_pageExit (c := c.setProc { c.proc with status := .exiting }) hg hal ?_) fun _ =>
    triple_exists fun c' => triple_pure ?_
  · simp [Known.setProc, Proc.covered, hm]
  rintro ⟨hproc, hg', hE⟩
  have hn : c'.proc.status ≠ .new := by rw [hproc]; exact fun h => by cases h
  refine triple_bind (tri_closeBinFile hn hE) fun _ => ?_
  refine triple_act rfl (fun _ => .exists fun _ => .and (.const _) stable_ctx) fun w hi hw e _ => ?_
  have hs := step_setPagedir (D := none) hi (u := t) (by rw [St.table, hw.table]; exact hE)
    (by rw [hw.proc]; exact hn) fun _ => rfl
  exact ⟨hs.inv, hs.keep, c'.setProc { c'.proc with binFile := none }, hg', hw.step hi hs⟩

/-- **thread_exit.** -/
theorem tri_threadExit (hn : P.status ≠ .new) :
    Tri G t (Base t P) threadExit fun _ => AtRest t := by
  unfold threadExit
  refine triple_bind (tri_syscallExit hn) fun _ => triple_bind (tri_processExit rfl) fun _ =>
    triple_exists fun c => triple_pure fun hg => ?_
  exact triple_conseq (tri_setStatus (c := c) nofun fun h => h.2 rfl) (fun _ _ h => h)
    fun _ _ _ hw => hw.atRest hg

/-- A system call that ends the process. -/
theorem tri_exitNone {α : Type} (hn : P.status ≠ .new) :
    Tri G t (Base t P) (do threadExit; pure none : K (Option α)) fun _ => AtRest t :=
  triple_bind (tri_threadExit hn) fun _ => triple_ret fun _ _ h => h

/-- `lookup_fd`. -/
theorem tri_lookupFd {h : Int} : Tri G t (Base t P) (lookupFd h) fun o w =>
    o = (P.fds.find? fun fd => fd.handle = h) ∧ Base t P w := by
  refine tri_rd (fun _ => .and (.const _) stable_base) fun w _ hw => ⟨?_, hw⟩
  obtain ⟨c, ⟨rfl, -⟩, hc⟩ := hw
  rw [hc.proc]

/-- **close.** -/
theorem tri_sysClose {handle : Int} (hn : P.status ≠ .new) :
    Tri G t (Base t P) (sysClose handle) fun _ => AtRest t := by
  unfold sysClose
  refine triple_bind tri_lookupFd fun o => triple_pure fun ho => ?_
  cases o with
  | none => exact tri_threadExit hn
  | some fd =>
    refine triple_exists fun c => triple_pure ?_
    rintro ⟨rfl, hg⟩
    exact triple_conseq (tri_closeLocked hn (mem_of_find?_eq_some ho.symm)) (fun _ _ h => h)
      fun _ _ _ hw => hw.atRest hg

end Pintos.Vm
