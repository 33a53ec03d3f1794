import Pintos.L3Proof.MapSpec

/-!
# Specifications of the accesses to user memory

A load or store of a process, the page fault it may cause, and the kernel's
copies under `page_lock`. A store through a present entry reaches the frame
and the specified memory of the process alike.
-/
namespace Pintos.Vm

open Pintos.Core Function Logic

variable {G : Goals} {t : Tid} {c : Known} {f : FrameId} {p : PageId} {r : Page} {w w' : W} {P : Proc}

/-! ## The hardware -/

variable {s s' : St} {a esp size : Nat} {b : Option Byte}

/-- What the hardware does when the entry allows the access. -/
theorem access_cases (h : access s t a b = some s') :
    ∃ pd, s.pagedirs t = some pd ∧ (pd.pte (pgRoundDown a)).present = true ∧
      ((b = none ∧ s' = s.setPagedir t (some { pd with
          pte := update pd.pte (pgRoundDown a) { pd.pte (pgRoundDown a) with accessed := true } })) ∨
        ∃ v, b = some v ∧ (pd.pte (pgRoundDown a)).writable = true ∧
          s' = (s.setRam (pd.pte (pgRoundDown a)).frame
            (update (s.ram (pd.pte (pgRoundDown a)).frame) (pgOfs a) v)).setPagedir t (some { pd with
              pte := update pd.pte (pgRoundDown a)
                { pd.pte (pgRoundDown a) with accessed := true, dirty := true } })) := by
  cases hpd : s.pagedirs t with
  | none => simp [access, St.pte, hpd, Pte.zero] at h
  | some pd =>
    have he : s.pte t (pgRoundDown a) = pd.pte (pgRoundDown a) := St.pte_of hpd _
    simp only [access, he] at h
    by_cases hp : (pd.pte (pgRoundDown a)).present = true
    · rw [if_pos hp] at h
      refine ⟨pd, rfl, hp, ?_⟩
      cases b with
      | none =>
        simp only [Option.some.injEq] at h
        exact .inl ⟨rfl, h ▸ setPte_eq hpd _ _⟩
      | some v =>
        by_cases hw : (pd.pte (pgRoundDown a)).writable = true
        · dsimp only at h
          rw [if_pos hw, Option.some.injEq] at h
          exact .inr ⟨v, rfl, hw, h ▸ setPte_eq (s := s.setRam _ _) hpd _ _⟩
        · simp [hw] at h
    · rw [if_neg hp] at h
      cases h

/-- An access leaves the entry present and the tables of the kernel alone. -/
theorem access_same (h : access s t a b = some s') :
    (s'.pte t (pgRoundDown a)).present = true ∧ s'.pages = s.pages ∧ s'.frames = s.frames ∧
      s'.locks = s.locks := by
  obtain ⟨pd, hpd, hp, ⟨-, rfl⟩ | ⟨v, -, -, rfl⟩⟩ := access_cases h
  · exact ⟨by simpa [St.pte] using hp, rfl, rfl, rfl⟩
  · exact ⟨by simpa [St.pte] using hp, rfl, rfl, rfl⟩

/-- **A load or store of a process.** -/
theorem step_access (hi : Inv G w) (ha : (w.st.procs t).status.alive)
    (e : Option Nat) (hlt : a < physBase) (h : access w.st t a b = some s') :
    Step G t none w ⟨s', auxStep t (accessLbl a b) e w.st s' w.aux⟩ := by
  obtain ⟨pd, hpd, hp, ⟨rfl, rfl⟩ | ⟨v, rfl, hw, rfl⟩⟩ := access_cases h
  · exact step_ptesDown hi hpd (pteLe_update ⟨rfl, rfl, rfl, id⟩)
  · have he : w.st.pte t (pgRoundDown a) = pd.pte (pgRoundDown a) := St.pte_of hpd _
    have hx : ∀ s', auxStep t (.store a v) e w.st s' w.aux =
        { w.aux with mem := update w.aux.mem t (update (w.aux.mem t) a v) } := by
      intro s'
      simp only [auxStep, he, hlt, hp, hw, and_self, if_true]
    rw [accessLbl, hx]
    exact step_store hi ha he hp hpd

/-! ## The user program -/

theorem restored_accessLbl (a : Nat) (b : Option Byte) (w : W) : Restored (accessLbl a b) w := by
  cases b <;> trivial

theorem auxStep_access_none (e : Option Nat) (x : Aux)
    (h : a < physBase → access s t a b = none) : auxStep t (accessLbl a b) e s s x = x := by
  cases b with
  | none => rfl
  | some v =>
    simp only [accessLbl, auxStep]
    rw [if_neg]
    rintro ⟨h1, h2, h3⟩
    have := h h1
    simp [access, h2, h3] at this

/-- A process that is not mapped at `a` knows it. -/
def Known.notPresent (c : Known) (a : Nat) : Known := { c with off := fun x => x = a }

theorem tri_touch (hg : c.gone = none) (ha : c.proc.status.alive) :
    Tri G t (Ctx t c) (touch a b) fun x w =>
      (x = .notPresent ∧ Ctx t (c.notPresent (pgRoundDown a)) w) ∨ (x ≠ .notPresent ∧ Base t c.proc w) := by
  refine triple_prim (fun _ => .or (.and (.const _) stable_ctx) (.and (.const _) stable_base))
    fun w hi hw => ⟨restored_accessLbl a b w, fun e _ => ?_⟩
  by_cases hlt : a < physBase
  · simp only [hlt, if_true]
    cases hacc : access w.st t a b with
    | some s' =>
      have hs := step_access hi (by rw [hw.proc]; exact ha) e hlt hacc
      exact ⟨hs.inv, hs.keep, .inr ⟨(fun h => by cases h), (hw.step hi hs).base hg⟩⟩
    | none =>
      simp only [Logic.next, auxStep_access_none e w.aux fun _ => hacc]
      refine stays hi ?_
      by_cases hp : (w.st.pte t (pgRoundDown a)).present = true
      · simp only [hp, if_true]
        exact .inr ⟨(fun h => by cases h), hw.base hg⟩
      · refine .inl ⟨by simp [hp], hw.proc, hw.table, hw.own, ?_, hw.gone⟩
        rintro x rfl
        simpa using hp
  · simp only [hlt, if_false, Logic.next, auxStep_access_none e w.aux fun h => absurd h hlt]
    exact stays hi (.inr ⟨(fun h => by cases h), hw.base hg⟩)

theorem tri_setUserEsp (hn : c.proc.status ≠ .new) :
    Tri G t (Ctx t c) (setUserEsp esp) fun _ => Ctx t (c.setProc { c.proc with userEsp := esp }) :=
  tri_modProcSame hn rfl rfl rfl rfl fun _ _ => rfl

/-- **A user access and the page fault it may cause.** -/
theorem tri_userAccess (hrun : P.status = .running) :
    Tri G t (Base t P) (userAccess esp a b) fun _ => AtRest t := by
  have hn : P.status ≠ .new := by rw [hrun]; exact nofun
  have hal : P.status.alive := by rw [hrun]; exact ⟨nofun, nofun⟩
  unfold userAccess
  refine triple_exists fun c => triple_pure ?_
  rintro ⟨rfl, hg⟩
  refine triple_bind (tri_touch hg hal) fun x => triple_or (triple_pure ?_) (triple_pure fun hx => ?_)
  · rintro rfl
    refine triple_bind (tri_setUserEsp (c := c.notPresent (pgRoundDown a)) hn) fun _ => ?_
    refine triple_bind (tri_pageIn (c := (c.notPresent _).setProc _) hg hal rfl) fun ok => ?_
    exact tri_ite (fun _ => triple_ret fun _ _ h => h.atRest) fun _ => tri_threadExit hn
  · cases x with
    | done => exact triple_ret fun _ _ h => h.atRest
    | notPresent => exact absurd rfl hx
    | violation =>
      refine triple_exists fun c' => triple_pure ?_
      rintro ⟨hc', hg'⟩
      refine triple_bind (tri_setUserEsp (c := c') (by rw [hc']; exact hn)) fun _ => ?_
      exact triple_pre (tri_threadExit (P := { c'.proc with userEsp := esp }) (by rw [hc']; exact hn))
        fun w _ hw => hw.base hg'

/-! ## The kernel under page_lock -/

/-- Process `t` has locked its page at `a` into memory. -/
def Pinned (G : Goals) (t : Tid) (P : Proc) (a : Nat) (f : FrameId) (p : PageId) (r : Page) (w : W) : Prop :=
  Base t P w ∧ LockedAt G t a f p r w

theorem stable_pinned : (logic G).Stable t (Pinned G t P a f p r) :=
  .and stable_base stable_lockedAt

/-- Files and locks other than those of frames do not matter. -/
theorem Pinned.files (h : Pinned G t P a f p r w)
    (hl : s'.holder = w.st.holder) (hp : s'.procs = w.st.procs)
    (hT : s'.tables = w.st.tables) (hpg : s'.pages = w.st.pages)
    (hpd : s'.pagedirs = w.st.pagedirs) (hf : s'.frames = w.st.frames)
    (hram : s'.ram = w.st.ram)
    (hB : r.isMmap = false → s'.backing r = w.st.backing r) :
    Pinned G t P a f p r ⟨s', w.aux⟩ := by
  obtain ⟨⟨c, ⟨rfl, hg⟩, hc⟩, hlk⟩ := h
  have hh := hlk.locked.held
  have hc' : Ctx t c ⟨s', w.aux⟩ := by
    refine ⟨?_, ?_, ?_, ?_, hc.gone⟩
    · rw [hp]; exact hc.proc
    · rw [hT]; exact hc.table
    · rw [hpg]; exact hc.own
    · simp only [St.pte, hpd]; exact hc.off
  refine ⟨hc'.base hg, hlk.thread, hlk.addr, ⟨?_, ?_, ?_, hh.back, hh.kept⟩, hlk.locked.quiet,
    hlk.locked.sector, fun hd hm hmm => ?_⟩
  · rw [hl]; exact hh.lock
  · rw [hf]; exact hh.frame
  · rw [hpg]; exact hh.page
  · have := hlk.locked.data hd (by simpa only [St.table, hT] using hm) hmm
    rw [hram, hpd]
    intro o ho
    rw [hB hmm]
    exact this o ho

theorem holder_setFs (s : St) (o : Option Tid) : (s.setLock .fs o).holder = s.holder := by
  funext f
  simp [St.holder]

theorem tri_acquireFsPinned : Tri G t (Pinned G t P a f p r) (lockAcquire .fs) fun _ =>
    Pinned G t P a f p r :=
  tri_acquireFs stable_pinned fun _ h => h.files (holder_setFs _ _) rfl rfl rfl rfl rfl rfl fun _ => rfl

theorem tri_releaseFsPinned : Tri G t (Pinned G t P a f p r) (lockRelease .fs) fun _ =>
    Pinned G t P a f p r :=
  tri_releaseFs stable_pinned fun _ h => h.files (holder_setFs _ _) rfl rfl rfl rfl rfl rfl fun _ => rfl

/-- Loads and stores change the specified memory only. -/
theorem auxStep_access (t : Tid) (a : Nat) (b : Option Byte) (e : Option Nat) (s s' : St) (x : Aux) :
    (auxStep t (accessLbl a b) e s s' x).givenUp = x.givenUp ∧
      (auxStep t (accessLbl a b) e s s' x).released = x.released ∧
      (auxStep t (accessLbl a b) e s s' x).swapping = x.swapping := by
  cases b with
  | none => exact ⟨rfl, rfl, rfl⟩
  | some v => simp only [accessLbl, auxStep]; split <;> exact ⟨rfl, rfl, rfl⟩

/-- **The kernel loads or stores a byte of a locked page.** -/
theorem tri_kernelTouch {x : Nat} (hx : pgRoundDown x = pgRoundDown a)
    (hal : P.status.alive) : Tri G t (Pinned G t P a f p r) (kernelTouch x b) fun _ =>
      Pinned G t P a f p r := by
  refine triple_prim (fun _ => stable_pinned) fun w hi hw => ⟨restored_accessLbl x b w, fun e _ => ?_⟩
  obtain ⟨⟨c, ⟨rfl, hg⟩, hc⟩, hlk⟩ := hw
  by_cases hlt : x < physBase
  · simp only [hlt, if_true]
    cases hacc : access w.st t x b with
    | none => exact tol_kernelFault
    | some s' =>
      have hs := step_access hi (by rw [hc.proc]; exact hal) e hlt hacc
      obtain ⟨hpr, hpg, hfr, hlo⟩ := access_same hacc
      obtain ⟨hgu, hre, hsw⟩ := auxStep_access t x b e w.st s' w.aux
      have hh := hlk.locked.held
      have hpage : s'.pages p = some r := by rw [hpg]; exact hh.page
      have hkept : (auxStep t (accessLbl x b) e w.st s' w.aux).givenUp p = false := by rw [hgu]; exact hh.kept
      refine ⟨hs.inv, hs.keep, (hc.step hi hs).base hg, hlk.thread, hlk.addr,
        ⟨?_, ?_, hpage, hh.back, hkept⟩, ⟨?_, ?_⟩, hlk.locked.sector, fun hd hm hmm => ?_⟩
      · simp only [Logic.next, St.holder, hlo]; exact hh.lock
      · simp only [Logic.next, hfr]; exact hh.frame
      · simp only [Logic.next]; rw [hre]; exact hlk.locked.quiet.1
      · simp only [Logic.next]; rw [hsw]; exact hlk.locked.quiet.2
      · -- the entry of the page is present, so the invariant tells what its frame holds
        refine (hs.inv.data hd).inn hm hpage hmm hh.back hkept (.inr ?_)
        rw [hlk.addr, hlk.thread, ← hx]
        exact hpr
  · simp only [hlt, if_false]
    exact tol_kernelFault

theorem pgRoundDown_copy (a o : Nat) : pgRoundDown (pgRoundDown a + pgOfs o) = pgRoundDown a := by
  simp only [pgRoundDown, pgOfs, pgSize]; omega

theorem tri_copyLoop (hal : P.status.alive) (ops : List (Nat × Option Byte)) :
    Tri G t (Pinned G t P a f p r) (copyLoop a ops) fun _ => Pinned G t P a f p r := by
  induction ops with
  | nil => exact triple_ret fun _ _ h => h
  | cons op ops ih => exact triple_bind (tri_kernelTouch (pgRoundDown_copy a op.1) hal) fun _ => ih

/-- `if (page_lock (a, ww)) k1 else k2`. -/
theorem tri_pageLockThen {α : Type} {ww : Bool} {k1 k2 : K α} {Q : α → W → Prop}
    (hal : P.status.alive) (h1 : ∀ f p r, Tri G t (Pinned G t P a f p r) k1 Q)
    (h2 : Tri G t (Base t P) k2 Q) :
    Tri G t (Base t P) (do if ← pageLock a ww then k1 else k2) Q := by
  refine triple_exists fun c => triple_pure ?_
  rintro ⟨rfl, hg⟩
  refine triple_bind (tri_pageLock hg hal) fun b => ?_
  cases b with
  | false => exact triple_pre h2 fun w _ hw => hw.1
  | true =>
    rintro w hi ⟨hb, hl⟩
    obtain ⟨f, p, r, hlk⟩ := hl rfl
    exact h1 f p r w hi ⟨hb, hlk⟩

theorem tri_setUserEspBase (hrun : P.status = .running) :
    Tri G t (Base t P) (setUserEsp esp) fun _ => Base t { P with userEsp := esp } := by
  refine triple_exists fun c => triple_pure ?_
  rintro ⟨rfl, hg⟩
  exact triple_conseq (tri_setUserEsp (by rw [hrun]; exact nofun)) (fun _ _ h => h) fun _ _ _ hw =>
    hw.base (c := c.setProc _) hg

/-- **copy_in**, one page. -/
theorem tri_lockedCopy {ww : Bool} {ops : List (Nat × Option Byte)} (hrun : P.status = .running) :
    Tri G t (Base t P) (lockedCopy esp a ww ops) fun _ => AtRest t := by
  have hn : P.status ≠ .new := by rw [hrun]; exact nofun
  have hal : P.status.alive := by rw [hrun]; exact ⟨nofun, nofun⟩
  refine triple_bind (tri_setUserEspBase hrun) fun _ => ?_
  refine tri_pageLockThen (P := { P with userEsp := esp }) hal (fun f p r => ?_) (tri_threadExit hn)
  refine triple_bind (tri_copyLoop (P := { P with userEsp := esp }) hal ops) fun _ => ?_
  exact triple_conseq tri_pageUnlock (fun _ _ h => h) fun _ _ _ h => h.atRest

/-! ## read and write -/

theorem transferred_le (ofs n : Nat) (b : Bool) : transferred ofs n b ≤ n := by
  unfold transferred
  split
  · exact le_rfl
  · split
    · exact Nat.div_mul_le_self n _
    · exact Nat.zero_le n

variable {fd : FileDescriptor}

/-- The position of an open file moves. -/
theorem pinned_seek (hi : Inv G w) (hw : Pinned G t P a f p r w) (hn : P.status ≠ .new)
    (hfd : fd ∈ P.fds) {F : File} (hF : w.st.files fd.file = some F) (pos : Nat) :
    MovesTo G t w ⟨w.st.setFile fd.file (some { F with pos := pos }), w.aux⟩ (Pinned G t P a f p r) := by
  obtain ⟨c, ⟨rfl, -⟩, hc⟩ := id hw.1
  rw [← hc.proc] at hn hfd
  obtain ⟨h1, h2⟩ := step_seek hi hn (fun u _ hb => (hi.file.bin hb).2 t fd hfd rfl) hF pos
  refine ⟨h1, h2, hw.files ?_ ?_ ?_ ?_ ?_ ?_ ?_ fun _ => backing_seek hF pos r⟩ <;> rfl

theorem pinned_fd (hi : Inv G w) (hw : Pinned G t P a f p r w) (hfd : fd ∈ P.fds) :
    ∃ F, w.st.files fd.file = some F := by
  obtain ⟨c, ⟨rfl, -⟩, hc⟩ := hw.1
  rw [← hc.proc] at hfd
  obtain ⟨F, hF, -⟩ := hi.file.fd hfd
  exact ⟨F, hF⟩

theorem tri_fileReadPinned {n : Nat} (hn : P.status ≠ .new) (hfd : fd ∈ P.fds) :
    Tri G t (Pinned G t P a f p r) (fileRead fd.file n) fun bs w =>
      bs.length ≤ n ∧ Pinned G t P a f p r w := by
  refine triple_act rfl (fun _ => .and (.const _) stable_pinned) fun w hi hw e _ => ?_
  obtain ⟨F, hF⟩ := pinned_fd hi hw hfd
  simp only [hF]
  obtain ⟨h1, h2, h3⟩ := pinned_seek hi hw hn hfd hF
    (F.pos + transferred F.pos (inFile (w.st.inodes F.inode) n F.pos) e.isSome)
  refine ⟨h1, h2, ?_, h3⟩
  rw [List.length_map, List.length_range]
  exact (transferred_le ..).trans (by simp only [inFile]; omega)

theorem tri_fileSeekPinned {pos : Nat} (hn : P.status ≠ .new) (hfd : fd ∈ P.fds) :
    Tri G t (Pinned G t P a f p r) (fileSeek fd.file pos) fun _ => Pinned G t P a f p r := by
  refine triple_act rfl (fun _ => stable_pinned) fun w hi hw e _ => ?_
  obtain ⟨F, hF⟩ := pinned_fd hi hw hfd
  simp only [hF]
  exact pinned_seek hi hw hn hfd hF pos

theorem tri_storeBytes (hal : P.status.alive) (bs : List Byte) (x : Nat)
    (hx : pgRoundDown x = pgRoundDown a) (hlen : bs.length ≤ pgSize - pgOfs x) :
    Tri G t (Pinned G t P a f p r) (storeBytes x bs) fun _ => Pinned G t P a f p r := by
  induction bs generalizing x with
  | nil => exact triple_ret fun _ _ h => h
  | cons b bs ih =>
    refine triple_bind (tri_kernelTouch hx hal) fun _ => ?_
    cases bs with
    | nil => exact triple_ret fun _ _ h => h
    | cons b' bs =>
      simp only [List.length_cons] at hlen
      refine ih (x + 1) ?_ ?_
      · simp only [pgRoundDown, pgOfs, pgSize] at *; omega
      · simp only [List.length_cons, pgRoundDown, pgOfs, pgSize] at *; omega

theorem tri_readLoop (hrun : P.status = .running) (hfd : fd ∈ P.fds) (n udst size : Nat) (done : Int) :
    Tri G t (Base t P) (readLoop fd.file n udst size done) fun _ => AtRest t := by
  have hn : P.status ≠ .new := by rw [hrun]; exact nofun
  have hal : P.status.alive := by rw [hrun]; exact ⟨nofun, nofun⟩
  induction n generalizing udst size done with
  | zero => exact triple_ret fun _ _ h => h.atRest
  | succ n ih =>
    refine tri_ite (fun _ => ?_) fun _ => triple_ret fun _ _ h => h.atRest
    refine tri_pageLockThen hal (fun f p r => ?_) (tri_exitNone hn)
    refine triple_bind tri_acquireFsPinned fun _ => ?_
    refine triple_bind (tri_fileReadPinned hn hfd) fun bs => triple_pure fun hbs => ?_
    refine triple_bind (tri_storeBytes hal bs udst rfl (by omega)) fun _ => ?_
    refine triple_bind tri_releaseFsPinned fun _ => triple_bind tri_pageUnlock fun _ => ?_
    exact tri_ite (fun _ => ih _ _ _) fun _ => triple_ret fun _ _ h => h.atRest

/-- **read.** -/
theorem tri_sysRead {handle : Int} {udst : Nat} (hrun : P.status = .running) :
    Tri G t (Base t P) (sysRead handle udst size) fun _ => AtRest t := by
  refine triple_bind tri_lookupFd fun o => triple_pure fun ho => ?_
  cases o with
  | none => exact tri_exitNone (by rw [hrun]; exact nofun)
  | some fd => exact tri_readLoop hrun (List.mem_of_find?_eq_some ho.symm) _ _ _ _

theorem tri_fileWrite {src : Nat} (hn : P.status ≠ .new) (hfd : fd ∈ P.fds) :
    Tri G t (Pinned G t P a f p r) (fileWrite fd.file src size) fun _ => Pinned G t P a f p r := by
  unfold fileWrite
  refine triple_bind (R := fun _ => Pinned G t P a f p r) (triple_act rfl (fun _ => stable_pinned)
    fun w hi hw e _ => ?_) fun pos => ?_
  · obtain ⟨F, hF⟩ := pinned_fd hi hw hfd
    simp only [hF]
    exact stays hi hw
  refine triple_bind (tri_fileWriteUser stable_pinned (fun w hi hw => ?_) fun w i m hi h0 hw => ?_) fun k =>
    triple_bind (tri_fileSeekPinned hn hfd) fun _ => triple_ret fun _ _ h => h
  · obtain ⟨F, hF⟩ := pinned_fd hi hw hfd
    rw [hF]; rfl
  · refine hw.files rfl rfl rfl rfl rfl rfl rfl fun hmm => ?_
    exact backing_write hi h0 hw.2.locked.held.page hmm

theorem tri_putbuf {src : Nat} :
    Tri G t (Pinned G t P a f p r) (putbuf src size) fun _ => Pinned G t P a f p r := by
  refine triple_act rfl (fun _ => stable_pinned) fun w hi hw e _ => ?_
  dsimp only
  by_cases hall : ((List.range size).all fun o => (kernelByte w.st t (u32 (src + o))).isSome) = true
  · rw [if_pos hall]
    exact stays hi hw
  · rw [if_neg hall]
    exact tol_kernelFault

theorem tri_sysWriteLoop (hrun : P.status = .running) {g : Option FileId}
    (hg : ∀ g', g = some g' → ∃ fd ∈ P.fds, fd.file = g') (n usrc size : Nat) (done : Int) :
    Tri G t (Base t P) (sysWriteLoop g n usrc size done) fun _ => AtRest t := by
  have hn : P.status ≠ .new := by rw [hrun]; exact nofun
  have hal : P.status.alive := by rw [hrun]; exact ⟨nofun, nofun⟩
  induction n generalizing usrc size done with
  | zero => exact triple_ret fun _ _ h => h.atRest
  | succ n ih =>
    refine tri_ite (fun _ => ?_) fun _ => triple_ret fun _ _ h => h.atRest
    refine tri_pageLockThen hal (fun f p r => ?_) (tri_exitNone hn)
    refine triple_bind tri_acquireFsPinned fun _ => ?_
    refine triple_bind (R := fun _ => Pinned G t P usrc f p r) ?_ fun k => ?_
    · cases g with
      | none => exact tri_putbuf
      | some g' =>
        obtain ⟨fd, hfd, rfl⟩ := hg g' rfl
        exact tri_fileWrite hn hfd
    refine triple_bind tri_releaseFsPinned fun _ => triple_bind tri_pageUnlock fun _ => ?_
    exact tri_ite (fun _ => ih _ _ _) fun _ => triple_ret fun _ _ h => h.atRest

/-- **write.** -/
theorem tri_sysWrite {handle : Int} {usrc : Nat} (hrun : P.status = .running) :
    Tri G t (Base t P) (sysWrite handle usrc size) fun _ => AtRest t := by
  unfold sysWrite
  refine tri_ite (fun _ => tri_sysWriteLoop (g := none) hrun nofun _ _ _ _) fun _ => ?_
  refine triple_bind tri_lookupFd fun o => triple_pure fun ho => ?_
  cases o with
  | none => exact tri_exitNone (by rw [hrun]; exact nofun)
  | some fd =>
    refine tri_sysWriteLoop hrun (fun g hg => ?_) _ _ _ _
    exact ⟨fd, List.mem_of_find?_eq_some ho.symm, by simpa using hg⟩

end Pintos.Vm
