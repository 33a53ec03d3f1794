import Pintos.L3Proof.SyscallSpec

/-!
# Specification of sys_mmap

The mapping is on the list of the process from the start, and the number of
its pages grows with each page that the loop allocates.
-/
namespace Pintos.Vm

open Pintos.Core Function Logic

variable {G : Goals} {t : Tid} {c : Known} {p : PageId} {r : Page} {w : W} {m : Nat} {g : FileId}

/-! ## The object of a mapping that is not on the list yet -/

/-- Object `m` belongs to the process and is not on its list. -/
structure Spare (c : Known) (m : Nat) (M : Mapping) : Prop where
  run : c.proc.status = .running
  gone : c.gone = none
  notin : m ∉ c.proc.mappings
  map : c.proc.maps m = some M

theorem ctx_setMap (hi : Inv G w) (hc : Ctx t c w) (hrun : c.proc.status = .running)
    (hm : m ∉ c.proc.mappings) (o : Option Mapping) :
    MovesTo G t w ⟨w.st.setProc t (c.proc.setMap m o), w.aux⟩ (Ctx t (c.setProc (c.proc.setMap m o))) := by
  refine ctx_procSame hi hc (by rw [hrun]; exact nofun) rfl rfl rfl rfl fun m' hm' => ?_
  have : m' ≠ m := by rintro rfl; exact hm hm'
  simp [Proc.setMap, this]

theorem tri_mallocMap (hrun : c.proc.status = .running) (hg : c.gone = none) :
    Tri G t (Ctx t c) mallocMap fun o w => (o = none ∧ Ctx t c w) ∨
      ∃ m c' M, o = some m ∧ (Spare c' m M ∧ c'.proc.fds = c.proc.fds) ∧ Ctx t c' w := by
  refine triple_act rfl (fun o => .or (.and (.const _) stable_ctx) (.exists fun _ => .exists fun _ =>
    .exists fun _ => .and (.const _) (.and (.const _) stable_ctx))) fun w hi hw e _ => ?_
  dsimp only
  cases e with
  | none => exact stays hi (.inl ⟨rfl, hw⟩)
  | some m =>
    dsimp only
    by_cases hm : ((w.st.procs t).maps m).isNone
    · simp only [hm, if_true]
      have hnot : m ∉ c.proc.mappings := by
        intro hmem
        have := hi.map.live (t := t) (m := m) (hw.proc ▸ hmem)
        simp_all
      obtain ⟨h1, h2, h3⟩ := ctx_setMap hi hw hrun hnot (some ⟨0, none, 0, 0⟩)
      rw [hw.proc]
      exact ⟨h1, h2, .inr ⟨m, c.setProc (c.proc.setMap m (some ⟨0, none, 0, 0⟩)), _, rfl,
        ⟨⟨hrun, hg, hnot, update_self ..⟩, rfl⟩, h3⟩⟩
    · simp only [hm, Bool.false_eq_true, if_false]

theorem fileFact_kept : FileFact G t fun w => Kept w.st.files w.st.procs g :=
  ⟨stable_kept, fun h1 h2 h => by rw [h1]; exact (kept_congr h2).2 h⟩

variable {M : Mapping} {P : Proc} {ms : List Nat} {h : Int} {addr i : Nat}

/-- `m->handle = ...` and the like. -/
theorem tri_modSpare {h : Mapping → Mapping} {X : W → Prop} (hX : FileFact G t X)
    (hs : Spare c m M) :
    Tri G t (fun w => Ctx t c w ∧ X w) (modMap m h) fun _ w =>
      ∃ c', (Spare c' m (h M) ∧ c'.proc.fds = c.proc.fds) ∧ Ctx t c' w ∧ X w := by
  refine triple_act rfl (fun o => .exists fun _ => .and (.const _) (.and stable_ctx hX.stable))
    fun w hi hw e _ => ?_
  simp only [hw.1.proc, hs.map]
  obtain ⟨h1, h2, h3⟩ := ctx_setMap hi hw.1 hs.run hs.notin (some (h M))
  refine ⟨h1, h2, c.setProc (c.proc.setMap m (some (h M))),
    ⟨⟨hs.run, hs.gone, hs.notin, update_self ..⟩, rfl⟩, h3, hX.same (w := w) rfl (fun u => ?_) hw.2⟩
  by_cases hu : u = t
  · subst hu; simp [Logic.next, Proc.setMap, hw.1.proc]
  · simp [Logic.next, hu]

theorem tri_nextHandle (hs : Spare c m M) :
    Tri G t (Ctx t c) nextHandle fun _ w =>
      ∃ c', (Spare c' m M ∧ c'.proc.fds = c.proc.fds) ∧ Ctx t c' w := by
  refine triple_act rfl (fun o => .exists fun _ => .and (.const _) stable_ctx)
    fun w hi hw e _ => ?_
  have hn : c.proc.status ≠ .new := by rw [hs.run]; exact nofun
  obtain ⟨h1, h2, h3⟩ := ctx_procSame hi hw (Q := { c.proc with nextHandle := c.proc.nextHandle + 1 }) hn
    rfl rfl rfl rfl fun _ _ => rfl
  simp only [hw.proc]
  exact ⟨h1, h2, c.setProc { c.proc with nextHandle := c.proc.nextHandle + 1 },
    ⟨⟨hs.run, hs.gone, hs.notin, hs.map⟩, rfl⟩, h3⟩

theorem opens_map (hi : Inv G w) {P' : Proc} (hfds : P'.fds = (w.st.procs t).fds)
    (hbin : P'.binFile = (w.st.procs t).binFile) (hm : P'.mappings = (w.st.procs t).mappings)
    (hM : ∀ m ∈ P'.mappings, P'.maps m = (w.st.procs t).maps m) :
    Opens w.st.procs (update w.st.procs t P') t g := by
  have hsame : ∀ u, (update w.st.procs t P' u).fds = (w.st.procs u).fds ∧
      (update w.st.procs t P' u).binFile = (w.st.procs u).binFile := by
    intro u
    by_cases hu : u = t
    · subst hu; simp [hfds, hbin]
    · simp [hu]
  constructor
  case fds => exact fun h => .inl ((hsame _).1 ▸ h)
  case nodup => exact fun u => (hsame u).1 ▸ hi.file.fdNodup u
  case bin => exact fun h => .inl ((hsame _).2 ▸ h)
  case binOld => exact fun h => (hsame _).2.trans h
  case map =>
    intro u m M h1 h2
    by_cases hu : u = t
    · subst hu
      simp only [update_self] at h1 h2
      exact ⟨hm ▸ h1, (hM m h1).symm.trans h2⟩
    · simp only [update_of_ne hu] at h1 h2
      exact ⟨h1, h2⟩

/-- `file_reopen`: nobody else refers to the new file. -/
theorem tri_fileReopen {fd : FileDescriptor} (hs : Spare c m M) (hfd : fd ∈ c.proc.fds) :
    Tri G t (Ctx t c) (fileReopen m fd.file) fun o w => (o = none ∧ Ctx t c w) ∨
      ∃ g c', o = some g ∧ Spare c' m { M with file := some g } ∧ Ctx t c' w ∧
        Kept w.st.files w.st.procs g := by
  refine triple_act rfl (fun o => .or (.and (.const _) stable_ctx) (.exists fun _ => .exists fun _ =>
    .and (.const _) (.and (.const _) (.and stable_ctx stable_kept)))) fun w hi hw e _ => ?_
  obtain ⟨F, hF, -⟩ := hi.file.fd (t := t) (hw.proc ▸ hfd)
  have hn : (w.st.procs t).status ≠ .new := by rw [hw.proc, hs.run]; exact nofun
  dsimp only
  rw [hF, hw.proc, hs.map]
  cases e with
  | none => exact stays hi (.inl ⟨rfl, hw⟩)
  | some g =>
    dsimp only
    by_cases hg : (w.st.files g).isNone
    · simp only [hg, if_true]
      have hg' : w.st.files g = none := by simpa using hg
      have hM : ∀ m' ∈ c.proc.mappings, (c.proc.setMap m (some { M with file := some g })).maps m' =
          c.proc.maps m' := by
        intro m' hm'
        have : m' ≠ m := by rintro rfl; exact hs.notin hm'
        simp [Proc.setMap, this]
      have hok : ProcOk G w t (c.proc.setMap m (some { M with file := some g })) :=
        procOk_same hi hn (by rw [hw.proc]; rfl) (by rw [hw.proc]; rfl) (by rw [hw.proc]; exact hM)
      have hop : Opens w.st.procs (update w.st.procs t
          (c.proc.setMap m (some { M with file := some g }))) t g :=
        opens_map hi (by rw [hw.proc]; rfl) (by rw [hw.proc]; rfl) (by rw [hw.proc]; rfl)
          (by rw [hw.proc]; exact hM)
      obtain ⟨h1, h2⟩ := step_open (i := F.inode) hi hg' hok hop
      refine ⟨h1, h2, .inr ⟨g, c.setProc (c.proc.setMap m (some { M with file := some g })), rfl,
        ⟨hs.run, hs.gone, hs.notin, update_self ..⟩, hw.setProc (update_self ..) rfl rfl rfl, ?_,
        fun u => ⟨fun hb => ?_, fun fd' hfd' he => ?_⟩⟩⟩
      · simp [Logic.next, openFile]
      · rcases hop.bin hb with hb' | ⟨rfl, -, -⟩
        · exact hi.file.bin_ne hg' hb' rfl
        · have : (w.st.procs u).binFile = some g := by
            simpa [Logic.next, Proc.setMap, ← hw.proc] using hb
          exact hi.file.bin_ne hg' this rfl
      · rcases hop.fds hfd' with h | ⟨rfl, -⟩
        · exact hi.file.fd_ne hg' h he
        · have : fd' ∈ (w.st.procs u).fds := by
            simpa [Logic.next, Proc.setMap, ← hw.proc] using hfd'
          exact hi.file.fd_ne hg' this he
    · simp only [hg, Bool.false_eq_true, if_false]

/-! ## The file of a page -/

/-- A page that has just been allocated is given its file. -/
theorem tri_setFile {P X : W → Prop} {r0 : Page} {pr : Bool} {ofs n : Nat} {k : Page → Page}
    (ho : c.own p = some r0) (hn : r0.frame = none) (hg : c.gone = none) (hsec : r0.sector = none)
    (hm : r0.isMmap = false)
    (hk : k r0 = { r0 with priv := pr, file := some g, fileOffset := ofs, fileBytes := n })
    (hX : FileFact G t X)
    (hP : ∀ w, Inv G w → P w → Ctx t c w ∧ X w ∧
      ((k r0).isMmap = true → Kept w.st.files w.st.procs g) ∧
      ((k r0).isMmap = false → c.proc.binFile = some g ∧
        ∃ F, w.st.files g = some F ∧ F.denyWrite = true) ∧
      (G.range → (k r0).isMmap = true → c.proc.status = .running → r0.addr ≠ physBase - pgSize)) :
    Tri G t P (modPage (.setFile p) p k) fun _ w => Ctx t (c.setOwn p (k r0)) w ∧ X w := by
  refine triple_act rfl (fun _ => .and stable_ctx hX.stable) fun w hi hw e _ => ?_
  obtain ⟨hc, hx, hmm, hseg, hstack⟩ := hP w hi hw
  obtain ⟨hp, ht⟩ := hc.mine ho hn
  rw [← hc.proc] at hseg hstack
  have hs := step_setFile hi hp ht hn (hc.kept hi hp ht hg) hsec hm hk hmm hseg hstack
  have haux : auxStep t (.setFile p) e w.st (w.st.setPage p (some (k r0))) w.aux = { w.aux with
      mem := update w.aux.mem t (putPage (w.aux.mem t) r0.addr (w.st.backing (k r0))) } := by
    have haddr : (k r0).addr = r0.addr := by rw [hk]
    simp only [auxStep, Aux.define, St.setPage_pages, update_self, haddr]
    rfl
  simp only [hp, Logic.next, haux]
  refine ⟨hs.inv, hs.keep, ?_, hX.same (w := w) rfl (fun _ => ⟨rfl, rfl⟩) hx⟩
  have hth : (k r0).thread = t := by rw [hk]; exact ht
  have hc' : Ctx t (c.forget p) ⟨w.st.setPage p (some (k r0)), { w.aux with
      mem := update w.aux.mem t (putPage (w.aux.mem t) r0.addr (w.st.backing (k r0))) }⟩ := by
    refine (hc.forget p).calm hi hs.calm fun q hq => ?_
    simp only [Option.some.injEq] at hq
    subst hq
    exact ⟨by simp [Known.forget], rfl⟩
  have := hc'.setOwn (p := p) (r := k r0) (update_self ..) hth
  simpa [Known.setOwn, Known.forget] using this

/-! ## The loop -/

/-- Mapping `m` of file `g` at `addr` is on the list and has `i` pages. -/
structure Mapped (c : Known) (m : Nat) (ms : List Nat) (g : FileId) (addr i : Nat) : Prop where
  run : c.proc.status = .running
  gone : c.gone = none
  list : c.proc.mappings = m :: ms
  notin : m ∉ ms
  map : ∃ h, c.proc.maps m = some ⟨h, some g, addr, i⟩

theorem Mapping.addrs_succ (h : Int) (o : Option FileId) (b i : Nat) :
    Mapping.addrs ⟨h, o, b, i + 1⟩ = Mapping.addrs ⟨h, o, b, i⟩ ++ [u32 (b + pgSize * i)] := by
  simp [Mapping.addrs, List.range_succ]

theorem covered_cons (hl : P.mappings = m :: ms)
    (hM : P.maps m = some M) :
    P.covered = M.addrs ++ ms.flatMap fun m => ((P.maps m).map Mapping.addrs).getD [] := by
  simp [Proc.covered, hl, hM]

/-- One more page of the mapping. -/
theorem covered_succ (hl : P.mappings = m :: ms)
    (hm : m ∉ ms) (hM : P.maps m = some ⟨h, some g, addr, i⟩) :
    (P.setMap m (some ⟨h, some g, addr, i + 1⟩)).covered.Perm (u32 (addr + pgSize * i) :: P.covered) := by
  have h1 : (P.setMap m (some ⟨h, some g, addr, i + 1⟩)).covered =
      (Mapping.addrs ⟨h, some g, addr, i⟩ ++ [u32 (addr + pgSize * i)]) ++
        ms.flatMap fun m => ((P.maps m).map Mapping.addrs).getD [] := by
    rw [covered_cons (P := P.setMap m _) hl (update_self ..), Mapping.addrs_succ]
    congr 1
    refine List.flatMap_congr fun m' hm' => ?_
    have : m' ≠ m := by rintro rfl; exact hm hm'
    simp [Proc.setMap, this]
  rw [h1, covered_cons hl hM, List.append_assoc, List.singleton_append]
  exact List.perm_middle

theorem addr_aligned (ha : pgOfs addr = 0) : pgOfs (u32 (addr + pgSize * i)) = 0 := by
  simp only [pgOfs, u32, pgSize] at *; omega

/-- `m->page_cnt++`. -/
theorem tri_countPage {x : Page} (hM : Mapped c m ms g addr i)
    (ho : c.own p = some x) (hmm : x.isMmap = true) (haddr : x.addr = u32 (addr + pgSize * i))
    (hnc : x.addr ∉ c.proc.covered) :
    Tri G t (fun w => Ctx t c w ∧ Kept w.st.files w.st.procs g)
      (modMap m fun r => { r with pageCnt := r.pageCnt + 1 }) fun _ w =>
        ∃ c', Mapped c' m ms g addr (i + 1) ∧ Ctx t c' w ∧ Kept w.st.files w.st.procs g := by
  refine triple_act rfl (fun o => .exists fun _ => .and (.const _) (.and stable_ctx stable_kept))
    fun w hi hw e _ => ?_
  obtain ⟨hc, hk⟩ := hw
  obtain ⟨h, hmap⟩ := hM.map
  simp only [hc.proc, hmap]
  set P' := c.proc.setMap m (some ⟨h, some g, addr, i + 1⟩) with hP'
  have hperm : P'.covered.Perm (u32 (addr + pgSize * i) :: c.proc.covered) :=
    covered_succ hM.list hM.notin hmap
  obtain ⟨r, h1, h2, h3⟩ := hc.own p x ho
  have hok := hi.map.at t
  rw [hc.proc] at hok
  have hmaps : MapsOk P' (w.st.table t) w.st.pages := by
    refine ⟨fun m' hm' => ?_, hperm.nodup_iff.2 (List.nodup_cons.2 ⟨haddr ▸ hnc, hok.nodup⟩), fun a ha => ?_⟩
    · by_cases he : m' = m
      · subst he; simp [hP', Proc.setMap]
      · simpa [hP', Proc.setMap, he] using hok.live m' hm'
    · rcases List.mem_cons.1 (hperm.mem_iff.1 ha) with rfl | ha'
      · have hmem := hi.table.owned h1
        rw [h3] at hmem
        exact ⟨p, r, hmem, h1, h2.addr.trans haddr, h2.isMmap.trans hmm⟩
      · exact hok.page a ha'
  have hPok : ProcOk G w t P' :=
    ⟨by rw [hP', Proc.setMap, hM.run]; exact nofun, fun ha => hc.proc ▸ ha, hmaps,
      fun hG hr => (hi.range hG).stack (hc.proc ▸ hr)⟩
  obtain ⟨g1, g2⟩ := step_proc hi hPok (by rw [hc.proc]; rfl) (by rw [hc.proc]; rfl) fun m' M' hm' hM' => by
    by_cases he : m' = m
    · subst he
      obtain rfl : _ = M' := by simpa [hP', Proc.setMap] using hM'
      exact ⟨g, rfl, hk⟩
    · exact hi.file.map (by rw [hc.proc]; exact hm') (by rw [hc.proc]; simpa [hP', Proc.setMap, he] using hM')
  refine ⟨g1, g2, c.setProc P', ⟨hM.run, hM.gone, hM.list, hM.notin, h, update_self ..⟩,
    hc.setProc (update_self ..) rfl rfl rfl, ?_⟩
  refine (kept_congr fun u => ?_).2 hk
  by_cases hu : u = t
  · subst hu; simp [Logic.next, hP', Proc.setMap, hc.proc]
  · simp [Logic.next, hu]

/-- The page of the next iteration lies in the range of user pages. -/
def InRange (G : Goals) (addr i length : Nat) : Prop :=
  G.range → 0 < length → pgSize ≤ addr + pgSize * i ∧ addr + pgSize * i < physBase

theorem InRange.next {length : Nat} (ha : pgOfs addr = 0) (h : InRange G addr i length)
    (hl : pgSize < length) (hst : G.range → pgRoundDown (u32 (addr + pgSize * i)) ≠ physBase - pgSize) :
    InRange G addr (i + 1) (length - pgSize) := by
  intro hG _
  obtain ⟨h1, h2⟩ := h hG (by omega)
  have h3 := hst hG
  simp only [pgRoundDown, u32, pgSize, physBase, pgOfs] at *
  omega

/-- **The loop of sys_mmap.** -/
theorem tri_mapLoop (ha : pgOfs addr = 0) (n i length : Nat)
    (hM : Mapped c m ms g addr i) (hr : InRange G addr i length) :
    Tri G t (fun w => Ctx t c w ∧ Kept w.st.files w.st.procs g) (mapLoop m addr g n (pgSize * i) length)
      fun _ w => ∃ c' i', Mapped c' m ms g addr i' ∧ Ctx t c' w := by
  induction n generalizing c i length with
  | zero => exact triple_ret fun w _ hw => ⟨c, i, hM, hw.1⟩
  | succ n ih =>
    unfold mapLoop
    refine tri_ite (fun hl => ?_) fun _ => triple_ret fun w _ hw => ⟨c, i, hM, hw.1⟩
    have hal : pgRoundDown (u32 (addr + pgSize * i)) = u32 (addr + pgSize * i) :=
      pgRoundDown_of_aligned (addr_aligned ha)
    refine triple_bind (tri_pageAllocate fileFact_kept hM.gone fun hG => ?_) fun o => triple_or (triple_pure ?_)
      (triple_exists fun p =>
      triple_exists fun es => triple_pure ?_)
    · obtain ⟨h1, h2⟩ := hr hG hl
      rw [hal]
      simp only [u32, physBase, pgSize] at *; omega
    · rintro rfl
      exact triple_ret fun w _ hw => ⟨c, i, hM, hw.1⟩
    rintro rfl
    refine triple_pure ?_
    rintro ⟨hT, hnc, hst⟩
    set bytes := if pgSize ≤ length then pgSize else length with hb
    set r1 : Page := { Page.fresh t (u32 (addr + pgSize * i)) false with
      priv := false, file := some g, fileOffset := pgSize * i, fileBytes := bytes } with hr1
    have hmm : r1.isMmap = true := rfl
    refine triple_bind (tri_setFile (c := c.alloc p (.fresh t (u32 (addr + pgSize * i)) false) es)
      (X := fun w => Kept w.st.files w.st.procs g) (update_self ..) rfl hM.gone rfl rfl rfl
      fileFact_kept fun w _ hw => ⟨hw.1, hw.2, fun _ => hw.2, (fun h => by cases hmm.symm.trans h),
        fun hG _ hrun => hst hG hrun⟩) fun _ => ?_
    refine triple_bind (tri_countPage (x := r1) ⟨hM.run, hM.gone, hM.list, hM.notin, hM.map⟩
      (update_self ..) hmm hal (hal ▸ hnc)) fun _ => triple_exists fun c' => triple_pure fun hM' => ?_
    by_cases hlt : pgSize < length
    · have hbytes : bytes = pgSize := if_pos (le_of_lt hlt)
      rw [hbytes]
      exact ih (i + 1) (length - pgSize) hM' (hr.next ha hlt fun hG => hst hG hM.run)
    · -- this was the last page
      have hz : length - bytes = 0 := by
        simp only [hb]; split <;> omega
      rw [hz]
      cases n with
      | zero => exact triple_ret fun w _ hw => ⟨c', i + 1, hM', hw.1⟩
      | succ n => exact triple_ret fun w _ hw => ⟨c', i + 1, hM', hw.1⟩

/-! ## sys_mmap -/

/-- The mapping goes on the list, without pages. -/
theorem tri_link (hs : Spare c m ⟨h, some g, addr, 0⟩) :
    Tri G t (fun w => Ctx t c w ∧ Kept w.st.files w.st.procs g)
      (modProc fun P => { P with mappings := m :: P.mappings }) fun _ w =>
        ∃ c', Mapped c' m c.proc.mappings g addr 0 ∧ Ctx t c' w ∧ Kept w.st.files w.st.procs g := by
  refine triple_act rfl (fun o => .exists fun _ => .and (.const _) (.and stable_ctx stable_kept))
    fun w hi hw e _ => ?_
  obtain ⟨hc, hk⟩ := hw
  simp only [hc.proc]
  set P' : Proc := { c.proc with mappings := m :: c.proc.mappings } with hP'
  have hcov : P'.covered = c.proc.covered := by
    have := covered_cons (P := P') (M := ⟨h, some g, addr, 0⟩) rfl hs.map
    simpa [Mapping.addrs, Proc.covered] using this
  have hok := hi.map.at t
  rw [hc.proc] at hok
  have hmaps : MapsOk P' (w.st.table t) w.st.pages := by
    refine ⟨fun m' hm' => ?_, hcov ▸ hok.nodup, by rw [hcov]; exact hok.page⟩
    rcases List.mem_cons.1 hm' with rfl | hm''
    · have := hs.map
      simp [hP', this]
    · exact hok.live m' hm''
  have hPok : ProcOk G w t P' :=
    ⟨by rw [hP', hs.run]; exact (fun h => by cases h), fun ha => hc.proc ▸ ha, hmaps,
      fun hG hr => (hi.range hG).stack (hc.proc ▸ hr)⟩
  obtain ⟨g1, g2⟩ := step_proc hi hPok (by rw [hc.proc]) (by rw [hc.proc]) fun m' M' hm' hM' => by
    rcases List.mem_cons.1 hm' with rfl | hm''
    · obtain rfl := Option.mem_unique hs.map hM'
      exact ⟨g, rfl, hk⟩
    · exact hi.file.map (by rw [hc.proc]; exact hm'') (by rw [hc.proc]; exact hM')
  refine ⟨g1, g2, c.setProc P', ⟨hs.run, hs.gone, rfl, hs.notin, h, hs.map⟩,
    hc.setProc (update_self ..) rfl rfl rfl, ?_⟩
  refine (kept_congr fun u => ?_).2 hk
  by_cases hu : u = t
  · subst hu; simp [Logic.next, hP', hc.proc]
  · simp [Logic.next, hu]

/-- `sys_mmap` once the file has been reopened. -/
theorem tri_mapFile (hs : Spare c m M) (hf : M.file = some g)
    (ha : pgOfs addr = 0) (h0 : addr ≠ 0) :
    Tri G t (fun w => Ctx t c w ∧ Kept w.st.files w.st.procs g) (mapFile m h addr g) fun _ => AtRest t := by
  have hst : ∀ c, (logic G).Stable t fun w => Ctx t c w ∧ Kept w.st.files w.st.procs g :=
    fun _ => .and stable_ctx stable_kept
  unfold mapFile
  refine triple_bind (tri_modSpare fileFact_kept hs) fun _ => triple_exists fun c1 => triple_pure fun ⟨hs1, _⟩ => ?_
  have hs1' : Spare c1 m ⟨M.handle, some g, addr, 0⟩ := hf ▸ hs1
  refine triple_bind (tri_link hs1') fun _ => triple_exists fun c2 => triple_pure fun hM => ?_
  refine triple_bind (tri_acquireFs (hst c2) fun w hw => ⟨hw.1.setLock, hw.2⟩) fun _ => ?_
  refine triple_bind (R := fun n w => (G.range → addr < physBase ∨ n = 0) ∧ Ctx t c2 w ∧
    Kept w.st.files w.st.procs g) (triple_act rfl (fun _ => .and (.const _) (hst c2)) fun w hi hw e hok => ?_)
    fun n => triple_pure fun hlen => ?_
  · obtain ⟨F, hF⟩ := Option.isSome_iff_exists.1 hw.2.1
    simp only [hF]
    exact stays hi ⟨fun hG => (hok.2.2 hG).imp_right fun h => h F hF, hw⟩
  refine triple_bind (tri_releaseFs (hst c2) fun w hw => ⟨hw.1.setLock, hw.2⟩) fun _ => ?_
  refine triple_bind (tri_mapLoop ha n 0 n hM ?_) fun b => triple_exists fun c3 => triple_exists fun i =>
    triple_pure fun hM3 => ?_
  · intro hG hn
    have hlt : addr < physBase := (hlen hG).resolve_right (by omega)
    simp only [pgOfs, pgSize, physBase] at *; omega
  · refine tri_ite (fun _ => triple_ret fun _ _ hw => hw.atRest hM3.gone) fun _ => ?_
    have hn : c3.proc.status ≠ .new := by rw [hM3.run]; exact fun h => by cases h
    exact triple_bind (tri_unmap hn hM3.gone (by simp [hM3.list])) fun _ => triple_ret fun _ _ hw => hw.atRest

theorem tri_mmapFd {fd : FileDescriptor} (hrun : c.proc.status = .running) (hg : c.gone = none)
    (hfd : fd ∈ c.proc.fds) : Tri G t (Ctx t c) (mmapFd fd addr) fun _ => AtRest t := by
  unfold mmapFd
  refine triple_bind (tri_mallocMap hrun hg) fun o => triple_or (triple_pure ?_) (triple_exists fun m =>
    triple_exists fun c1 => triple_exists fun M => triple_pure ?_)
  · rintro rfl
    exact triple_ret fun _ _ hw => hw.atRest hg
  rintro rfl
  refine triple_pure fun ⟨hs1, hf1⟩ => tri_ite (fun _ => triple_ret fun _ _ hw => hw.atRest hs1.gone) fun hna => ?_
  refine triple_bind (tri_nextHandle hs1) fun h => triple_exists fun c2 => triple_pure fun ⟨hs2, hf2⟩ => ?_
  refine triple_bind (triple_pre (tri_modSpare .true hs2) fun _ _ h => ⟨h, trivial⟩) fun _ =>
    triple_exists fun c3 => triple_pure fun ⟨hs3, hf3⟩ => ?_
  refine triple_bind (triple_pre tri_acquireFsCtx fun _ _ h => h.1) fun _ => ?_
  have hfd3 : fd ∈ c3.proc.fds := by rw [hf3, hf2, hf1]; exact hfd
  refine triple_bind (tri_fileReopen hs3 hfd3) fun o => ?_
  refine triple_bind (R := fun _ w => (o = none ∧ Ctx t c3 w) ∨
      ∃ g c', o = some g ∧ Spare c' m { M with handle := h, file := some g } ∧ Ctx t c' w ∧
        Kept w.st.files w.st.procs g) (tri_releaseFs ?_ ?_) fun _ => triple_or (triple_pure ?_)
        (triple_exists fun g => triple_exists fun c4 => triple_pure ?_)
  · exact .or (.and (.const _) stable_ctx) (.exists fun _ => .exists fun _ => .and (.const _)
      (.and (.const _) (.and stable_ctx stable_kept)))
  · rintro w (⟨ho, hc⟩ | ⟨g, c', ho, hs, hc, hk⟩)
    · exact .inl ⟨ho, hc.setLock⟩
    · exact .inr ⟨g, c', ho, hs, hc.setLock, hk⟩
  · rintro rfl
    refine triple_bind (R := fun _ => AtRest t) (triple_act rfl (fun _ => stable_atRest) fun w hi hw e _ => ?_)
      fun _ => triple_ret fun _ _ h => h
    dsimp only
    rw [hw.proc]
    obtain ⟨h1, h2, h3⟩ := ctx_setMap hi hw hs3.run hs3.notin none
    exact ⟨h1, h2, h3.atRest hs3.gone⟩
  · rintro rfl
    refine triple_pure fun hs4 => ?_
    simp only [not_or, ne_eq, not_not] at hna
    exact tri_mapFile hs4 rfl hna.2 hna.1

/-- **mmap.** -/
theorem tri_sysMmap {handle : Int} (hrun : P.status = .running) :
    Tri G t (Base t P) (sysMmap handle addr) fun _ => AtRest t := by
  unfold sysMmap
  refine triple_bind tri_lookupFd fun o => triple_pure fun ho => ?_
  cases o with
  | none => exact tri_exitNone (by rw [hrun]; exact nofun)
  | some fd =>
    refine triple_exists fun c => triple_pure ?_
    rintro ⟨rfl, hg⟩
    exact triple_bind (tri_mmapFd hrun hg (List.mem_of_find?_eq_some ho.symm)) fun _ =>
      triple_ret fun _ _ h => h

/-- **munmap.** The kernel reads a mapping object at the address that is the
handle, and stops there. -/
theorem tri_sysMunmap {mapping : Int} (hn : P.status ≠ .new) :
    Tri G t (Base t P) (sysMunmap mapping) fun _ => AtRest t := by
  unfold sysMunmap
  refine triple_bind (R := fun _ => Base t P) (tri_rd (fun _ => stable_base) fun _ _ h => h) fun o => ?_
  cases o with
  | none => exact tri_exitNone hn
  | some m =>
    refine triple_bind (R := fun _ => AtRest t) (triple_act rfl (fun _ => stable_atRest) fun w hi hw e _ => ?_)
      fun _ => triple_ret fun _ _ h => h
    dsimp only
    cases kernelByte w.st t (mapping % 2 ^ 32).toNat with
    | none => exact tol_kernelFault
    | some b => exact ⟨nofun, nofun, fun _ => nofun⟩

end Pintos.Vm
