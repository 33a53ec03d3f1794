import Pintos.L3Proof.SwapSpec

/-!
# Specifications of page_out and vm/frame.c

`page_out` takes a page in a locked frame out of memory: its data is then in
a swap slot, in its file, or all zero. `frame_alloc_and_lock` returns a locked
frame for a page of the running process, if necessary by evicting a page,
which may be a page of any process, itself included.
-/
namespace Pintos.Vm

open Pintos.Core Logic

variable {G : Goals} {t : Tid} {c : Known} {f : FrameId} {p : PageId} {r : Page} {w w' : W}

/-! ## page_out -/

/-- The data of the page will be found outside memory. -/
structure Evictable (G : Goals) (r : Page) (v : View) : Prop where
  quiet : v.quiet
  noFile : r.sector.isSome → r.file = none
  saved : r.sector.isSome → ∀ o < pgSize, v.saved o = v.ram o
  zero : G.data → r.sector = none → r.file = none → ∀ o < pgSize, v.ram o = 0
  clean : G.data → r.isMmap = false → r.file.isSome → v.dirty = false

theorem Loaded.stored (h : Loaded G t c f p r (Evictable G r) w) (hd : G.data)
    (hmem : p ∈ w.st.table r.thread) (hm : r.isMmap = false) :
    Stored w.st.backing w.aux.saved w.aux.mem p { r with frame := none } := by
  intro o ho
  have hin := h.current hd hmem hm o ho
  have hev := h.parked.view
  cases hs : r.sector with
  | some x =>
    have := hev.saved (by simp [hs]) o ho
    simp only [Option.isSome_some, if_true]
    exact this.trans hin.1
  | none =>
    simp only [Option.isSome_none, Bool.false_eq_true, if_false]
    cases hf : r.file with
    | none =>
      have hz : w.st.ram f o = 0 := hev.zero hd hs hf o ho
      have hB : w.st.backing { r with frame := none, sector := none, file := none } o = 0 := rfl
      rw [hz] at hin
      exact hB.trans hin.1
    | some g =>
      have := hin.2 (by simp [hf]) (hev.clean hd hm (by simp [hf]))
      simpa only [St.backing, hf] using this

/-- The first access bit of `page_out`: the page is no longer mapped. -/
theorem tri_pagedirClearPage :
    Tri G t (fun w => Ctx t c w ∧ Locked G t f p r w) (pagedirClearPage p r.thread r.addr) fun _ w =>
      r.addr < physBase ∧ Loaded G t c f p r
        (fun v => v.quiet ∧ (G.data → r.file.isSome ∨ v.dirty = false)) w := by
  refine triple_act rfl (fun _ => .and (.const _) stable_loaded) fun w hi hw e hok => ?_
  obtain ⟨hc, hl⟩ := hw
  dsimp only
  cases hpd : w.st.pagedirs r.thread with
  | none => exact tol_assertion
  | some pd =>
    by_cases ha : pgOfs r.addr = 0 ∧ r.addr < physBase
    · simp only [ha, and_self, if_true, setPte_eq hpd]
      have hle := pteLe_update (d := pd) (x := r.addr)
        (e := { w.st.pte r.thread r.addr with present := false })
        (by rw [St.pte_of hpd]; exact ⟨rfl, rfl, rfl, nofun⟩)
      have hs := step_ptesDown (u := t) hi hpd hle
      have hh : HeldSame G f p r w _ := heldSame_ptesDown hpd hle hl.held.page
      have hl' := hl.same hh hl.held.lock rfl
      refine ⟨hs.inv, hs.keep, trivial, hc.step hi hs, ⟨hl'.held, ?_, hl'.quiet, fun hd => ?_⟩, hl'.data⟩
      · simp only [Off, Logic.next, St.pte_setPagedir, Function.update_self]
      · refine (hok.1 hd r hl.held.page).imp_right fun h => ?_
        simpa only [view, Logic.next, St.pte_setPagedir, Function.update_self] using h
    · simp only [ha, if_false]; exact tol_assertion

/-- `page_out` writes a dirty page to its file: only an mmap page's file takes it. -/
theorem tri_fileWriteAt {g : FileId} {Q : View → Prop} {n ofs : Nat} (hf : r.file = some g) :
    Tri G t (Loaded G t c f p r Q) (fileWriteAt g f n ofs) fun k w =>
      (k ≠ 0 → r.isMmap = true) ∧ Loaded G t c f p r Q w := by
  refine triple_act rfl (fun _ => .and (.const _) stable_loaded) fun w hi hw e _ => ?_
  have hp := hw.parked.held.page
  obtain ⟨F, hF, hden⟩ : ∃ F, w.st.files g = some F ∧
      (r.isMmap = false → (w.st.inodes F.inode).denyWriteCnt ≠ 0) := by
    cases hm : r.isMmap with
    | true =>
      obtain ⟨g', h1, h2⟩ := hi.file.mmap hp hm
      obtain rfl := Option.mem_unique hf h1
      obtain ⟨F, hF⟩ := Option.isSome_iff_exists.1 h2.1
      exact ⟨F, hF, nofun⟩
    | false =>
      obtain ⟨-, F, h1, h2⟩ := hi.file.seg hp hm hf
      exact ⟨F, h1, fun _ => hi.file.denied_pos h1 h2⟩
  simp only [hF]
  by_cases h0 : (w.st.inodes F.inode).denyWriteCnt = 0
  · have hmm : r.isMmap = true := by
      by_contra hm
      exact hden (by simpa using hm) h0
    simp only [h0, ne_eq, not_true, if_false]
    have hs := step_write (u := t) hi (n := (w.st.inodes F.inode).write ofs
      (transferred ofs (inFile (w.st.inodes F.inode) n ofs) e.isSome) (w.st.ram f)) h0 rfl rfl
    exact ⟨hs.inv, hs.keep, fun _ => hmm, hw.same hi hs (heldSame_write hi h0 hp) rfl rfl⟩
  · simp only [ne_eq, h0, not_false_eq_true, if_true]
    exact stays hi ⟨nofun, hw⟩

/-- The result of writing a page out. -/
def WrittenOut (G : Goals) (t : Tid) (c : Known) (f : FrameId) (p : PageId) (r : Page) (ok : Bool)
    (w : W) : Prop :=
  (ok = true ∧ ∃ r', Loaded G t c f p r' (Evictable G r') w) ∨
    (ok = false ∧ Loaded G t c f p r View.quiet w)

theorem evictable_swapped {k : Nat} {v : View} (hq : v.quiet) (h : ∀ o < pgSize, v.saved o = v.ram o) :
    Evictable G (r.swapped k) v :=
  ⟨hq, fun _ => rfl, fun _ => h, nofun, nofun⟩

/-- A page that has been swapped out already. -/
theorem tri_pageOutDirty_swapped {d : Bool} {k : Nat} (hd : G.data → d = false) :
    Tri G t (Loaded G t c f p (r.swapped k)
        fun v => v.quiet ∧ v.dirty = d ∧ ∀ o < pgSize, v.saved o = v.ram o) (pageOutDirty p f d)
      (WrittenOut G t c f p r) := by
  unfold pageOutDirty
  cases d with
  | false =>
    exact triple_ret fun w _ hw =>
      .inl ⟨rfl, r.swapped k, hw.mono fun v hv => evictable_swapped hv.1 hv.2.2⟩
  | true =>
    -- `private` has been cleared, so the page is written to its file, which is `NULL`
    refine tri_readThen stable_loaded (fun _ _ h => h.parked.held.page) ?_
    exact tri_fail fun _ _ _ => ⟨(fun h => by cases h), (fun h => by cases h), fun h => by cases hd h⟩

theorem tri_pageOutDirty {d : Bool} (hsec : r.sector = none) (hb : r.frame = some f)
    (hd : G.data → r.file.isSome ∨ d = false) :
    Tri G t (Loaded G t c f p r fun v => v.quiet ∧ v.dirty = d ∧
        (G.data → r.file = none → ∀ o < pgSize, v.ram o = 0)) (pageOutDirty p f d)
      (WrittenOut G t c f p r) := by
  unfold pageOutDirty
  cases d with
  | false =>
    refine triple_ret fun w _ hw => .inl ⟨rfl, r, hw.mono fun v hv => ⟨hv.1, ?_, ?_, ?_, ?_⟩⟩
    · simp [hsec]
    · simp [hsec]
    · exact fun hG _ hf => hv.2.2 hG hf
    · exact fun _ _ _ => hv.2.1
  | true =>
    refine tri_readThen stable_loaded (fun _ _ h => h.parked.held.page) ?_
    refine tri_ite (fun hpriv => ?_) fun hpriv => ?_
    · have hm : r.isMmap = false := by simp [Page.isMmap, hpriv]
      refine triple_conseq (tri_swapOut (c := c) (d := true) hm hsec hb) ?_ ?_
      · exact fun w _ hw => hw.mono fun v hv => ⟨hv.1, hv.2.1⟩
      · rintro ok w _ (⟨rfl, k, hw⟩ | ⟨rfl, hw⟩)
        · exact .inl ⟨rfl, r.swapped k, hw.mono fun v hv => evictable_swapped hv.1 hv.2.2⟩
        · exact .inr ⟨rfl, hw.mono fun v hv => hv.1⟩
    · cases hf : r.file with
      | none =>
        exact tri_fail fun _ _ _ => ⟨(fun h => by cases h), (fun h => by cases h), fun h => by simpa [hf] using hd h⟩
      | some g =>
        refine triple_bind (tri_fileWriteAt hf) fun n => triple_ret fun w _ h => ?_
        obtain ⟨hn, hw⟩ := h
        by_cases h0 : n = 0
        · exact .inr ⟨by simp [h0], hw.mono fun v hv => hv.1⟩
        · refine .inl ⟨by simp [h0], r, hw.mono fun v hv => ⟨hv.1, ?_, ?_, ?_, ?_⟩⟩
          · simp [hsec]
          · simp [hsec]
          · simp [hf]
          · simp [hn h0]

/-- **page_out.** The page has lost its frame, or it stays where it is and is
not mapped any more. -/
theorem tri_pageOut (hsec : r.sector = none) (hb : r.frame = some f) :
    Tri G t (fun w => Ctx t c w ∧ Locked G t f p r w) (pageOut p) fun ok w =>
      (ok = true ∧ Ctx t c w ∧ Vacated t f p w) ∨ (ok = false ∧ Loaded G t c f p r View.quiet w) := by
  have hst := stable_ctx (G := G) (t := t) (c := c)
  unfold pageOut
  refine tri_readThen (hst.and stable_locked) (fun _ _ h => h.2.held.page) ?_
  simp only [hb]
  refine tri_assertHeldThen (hst.and stable_locked) ?_
  refine triple_bind tri_pagedirClearPage fun _ => triple_pure fun hlt => ?_
  refine triple_bind (R := fun d w => (G.data → r.file.isSome ∨ d = false) ∧
    Loaded G t c f p r (fun v => v.quiet ∧ v.dirty = d) w) (triple_act rfl
      (fun _ => .and (.const _) stable_loaded) fun w hi hw e _ => ?_)
    fun d => triple_pure fun hd => ?_
  · dsimp only
    cases hpd : w.st.pagedirs r.thread with
    | none => exact tol_assertion
    | some pd =>
      rw [if_pos hlt]
      exact stays hi ⟨hw.parked.view.2, hw.ctx,
        ⟨hw.parked.held, hw.parked.off, hw.parked.view.1, rfl⟩, hw.current⟩
  refine tri_readThen stable_loaded (fun _ _ h => h.parked.held.page) ?_
  refine triple_bind (R := fun _ w =>
    (∃ k, Loaded G t c f p (r.swapped k) (fun v => v.quiet ∧ v.dirty = d ∧
      ∀ o < pgSize, v.saved o = v.ram o) w) ∧ r.file = none ∨
    Loaded G t c f p r (fun v => v.quiet ∧ v.dirty = d ∧
      (G.data → r.file = none → ∀ o < pgSize, v.ram o = 0)) w) (tri_doIf ?_ ?_) fun _ => ?_
  · intro hn
    have hf : r.file = none := by simpa using hn
    refine triple_bind (tri_swapOut (by simp [Page.isMmap, hf]) hsec hb) fun b =>
      triple_ret fun w _ hw => ?_
    rcases hw with ⟨-, k, hw⟩ | ⟨-, hw⟩
    · exact .inl ⟨⟨k, hw⟩, hf⟩
    · exact .inr hw
  · intro hn w _ hw
    exact .inr (hw.mono fun v hv => ⟨hv.1, hv.2, fun _ hf => by simp [hf] at hn⟩)
  refine triple_bind (R := WrittenOut G t c f p r) (triple_or ?_ (tri_pageOutDirty hsec hb hd)) fun ok => ?_
  · rintro w hi ⟨⟨k, hw⟩, hf⟩
    exact tri_pageOutDirty_swapped (fun hG => by simpa [hf] using hd hG) w hi hw
  refine triple_bind (R := fun _ w => (ok = true ∧ Ctx t c w ∧ Vacated t f p w) ∨
    (ok = false ∧ Loaded G t c f p r View.quiet w)) (tri_doIf ?_ ?_) fun _ => triple_ret fun _ _ h => h
  · rintro rfl
    refine tri_modPage (fun w => w.aux) (fun _ _ _ => rfl) ?_ (fun _ _ _ => trivial) fun w hi hw => ?_
    · exact .or (.and (.const _) (.and stable_ctx stable_vacated)) (.and (.const _) stable_loaded)
    · rcases hw with ⟨-, r', hw⟩ | ⟨h, -⟩
      · have hh := hw.parked.held
        have hev := hw.parked.view
        have hs := step_dropFrame hi hh hw.parked.off hev.quiet hev.noFile fun hG => hw.stored hG
        refine ⟨r', none, hh.page, hs, .inl ⟨rfl, hw.ctx.step hi hs, ⟨hh.lock, hh.frame⟩, ?_⟩⟩
        intro r0 hr0
        obtain rfl : { r' with frame := none } = r0 := by simpa using hr0
        exact fun h => by cases h
      · cases h
  · rintro rfl w _ (⟨h, -⟩ | hw)
    · cases h
    · exact .inr hw

/-! ## The clock algorithm -/

theorem tri_pageAccessedRecently (hb : r.frame = some f) :
    Tri G t (fun w => Ctx t c w ∧ Locked G t f p r w) (pageAccessedRecently p)
      fun _ w => Ctx t c w ∧ Locked G t f p r w := by
  have hst := (stable_ctx (G := G) (t := t) (c := c)).and
    (stable_locked (G := G) (t := t) (f := f) (p := p) (r := r))
  unfold pageAccessedRecently
  refine tri_readThen hst (fun _ _ h => h.2.held.page) ?_
  simp only [hb]
  refine tri_assertHeldThen hst ?_
  refine triple_bind (R := fun _ w => Ctx t c w ∧ Locked G t f p r w)
    (triple_act rfl (fun _ => hst) fun w hi hw e _ => ?_) fun b => ?_
  · dsimp only
    cases hpd : w.st.pagedirs r.thread with
    | none => exact tol_assertion
    | some pd => exact stays hi hw
  refine triple_bind (R := fun _ w => Ctx t c w ∧ Locked G t f p r w)
    (tri_doIf (fun _ => ?_) fun _ _ _ h => h) fun _ => triple_ret fun _ _ h => h
  refine triple_act rfl (fun _ => hst) fun w hi hw e _ => ?_
  dsimp only
  cases hpd : w.st.pagedirs r.thread with
  | none => exact tol_assertion
  | some pd =>
    simp only [setPte_eq hpd]
    have hle := pteLe_update (d := pd) (x := r.addr)
      (e := { w.st.pte r.thread r.addr with accessed := false }) (by rw [St.pte_of hpd]; exact ⟨rfl, rfl, rfl, id⟩)
    have hs := step_ptesDown (u := t) hi hpd hle
    exact ⟨hs.inv, hs.keep, hw.1.step hi hs,
      hw.2.same (heldSame_ptesDown hpd hle hw.2.held.page) hw.2.held.lock rfl⟩

/-- `lock_try_acquire (&f->lock)`. -/
theorem tri_tryLockFrame :
    Tri G t (Ctx t c) (lockTryAcquire (.frame f)) fun b w =>
      Ctx t c w ∧ (b = true → FrameLocked G t f w) := by
  refine tri_lockTryAcquire (fun b => .and stable_ctx (.forall fun _ => stable_frameLocked)) ?_ ?_
  · intro w hi hw hl
    exact ⟨hw.step hi (step_acquire (u := t) hi hl), fun _ => frameLocked_acquire hi hl⟩
  · exact fun w _ hw => ⟨hw, nofun⟩

/-- `f->page` of a frame that has just been locked. -/
theorem tri_framePage :
    Tri G t (fun w => Ctx t c w ∧ FrameLocked G t f w) (framePage f) fun o w =>
      (o = none ∧ Ctx t c w ∧ Taken t f none w) ∨
        ∃ q r, o = some q ∧ Ctx t c w ∧ Locked G t f q r w := by
  refine tri_rd (fun o => .or (.and (.const _) (.and stable_ctx stable_taken)) (.exists fun _ =>
    .exists fun _ => .and (.const _) (.and stable_ctx stable_locked))) fun w _ hw => ?_
  rcases hw.2.2 with h | ⟨q, r, h⟩
  · exact .inl ⟨h, hw.1, hw.2.1, h⟩
  · exact .inr ⟨q, r, h.held.frame, hw.1, h⟩

/-- `f->page = page` for a page of `t` that has no frame. -/
theorem tri_takeFrame {page : PageId} {r0 : Page} (ho : c.own page = some r0) (hn : r0.frame = none)
    {P : W → Prop} (hP : ∀ w, Inv G w → P w → Ctx t c w ∧ w.st.holder f = some t ∧
      ∀ p r', w.st.pages p = some r' → r'.frame = some f → w.st.frames f ≠ some p) :
    Tri G t P (setFramePage .tau f (some page)) fun _ w => Ctx t c w ∧ Taken t f (some page) w := by
  refine tri_setFramePage (fun w => w.aux) (fun _ _ _ _ _ => rfl) (.and stable_ctx stable_taken)
    (fun _ => trivial) fun w hi hw => ?_
  obtain ⟨hc, hl, hf⟩ := hP w hi hw
  have hs := step_takeFrame hi hl (hc.mine ho hn).1 hn fun p r' hp hb => by
    by_contra hg
    exact hf p r' hp hb (hi.frame.back hp hb (by simpa using hg))
  exact ⟨none, hs, hc.step hi hs, hl, Function.update_self ..⟩

theorem tri_releaseScan {o : Option PageId} :
    Tri G t (fun w => Ctx t c w ∧ Taken t f o w) (lockRelease .scan) fun _ w =>
      Ctx t c w ∧ Taken t f o w := by
  refine tri_lockRelease (.and stable_ctx stable_taken) fun w hi hw hl => ⟨nofun, ?_⟩
  exact ⟨hw.1.step hi (step_release (G := G) hi hl nofun), hw.2⟩

theorem tri_releaseFrame {P : W → Prop}
    (hP : ∀ w, Inv G w → P w → Ctx t c w ∧ Releasable G f w) :
    Tri G t P (lockRelease (.frame f)) fun _ => Ctx t c := by
  refine tri_lockRelease stable_ctx fun w hi hw hl => ?_
  have hrel : ∀ f', Lock.frame f = .frame f' → Releasable G f' w := by
    rintro f' ⟨⟩; exact (hP w hi hw).2
  exact ⟨hrel, (hP w hi hw).1.step hi (step_release hi hl hrel)⟩

/-- A frame has been locked for `page`, if one was found. -/
def Got (t : Tid) (c : Known) (page : PageId) (o : Option FrameId) (w : W) : Prop :=
  Ctx t c w ∧ ∀ f, o = some f → Taken t f (some page) w

section Alloc
variable {page : PageId} {r0 : Page} (ho : c.own page = some r0) (hn : r0.frame = none)
include ho hn

/-- The end of both loops when a free frame is found. -/
theorem tri_takeFree :
    Tri G t (fun w => Ctx t c w ∧ Taken t f none w)
      (do setFramePage .tau f (some page); lockRelease .scan; pure (some f)) (Got t c page) := by
  refine triple_bind (tri_takeFrame ho hn fun w _ hw => ⟨hw.1, hw.2.1, ?_⟩) fun _ => ?_
  · intro p r' _ _ h
    cases hw.2.2.symm.trans h
  · refine triple_bind tri_releaseScan fun _ => triple_ret fun w _ hw => ⟨hw.1, ?_⟩
    rintro f' ⟨⟩; exact hw.2

theorem tri_findFree (n : Nat) (f : FrameId) : Tri G t (Ctx t c) (findFree page n f) (Got t c page) := by
  induction n generalizing f with
  | zero => exact triple_ret fun w _ hw => ⟨hw, nofun⟩
  | succ n ih =>
    refine triple_bind tri_tryLockFrame fun b => ?_
    cases b with
    | false => exact triple_pre (ih (f + 1)) fun w _ hw => hw.1
    | true =>
      refine triple_bind (triple_pre tri_framePage fun w _ hw => ⟨hw.1, hw.2 rfl⟩) fun o => triple_or ?_ ?_
      · refine triple_pure ?_
        rintro rfl
        exact tri_takeFree ho hn
      · refine triple_exists fun q => triple_exists fun r => triple_pure ?_
        rintro rfl
        exact triple_bind (tri_releaseFrame fun w _ hw => ⟨hw.1, hw.2.releasable⟩) fun _ => ih (f + 1)

/-- The victim has been chosen. -/
theorem tri_evict {q : PageId} :
    Tri G t (fun w => Ctx t c w ∧ Locked G t f q r w)
      (do
        lockRelease .scan
        if ← pageOut q then
          setFramePage .tau f (some page)
          pure (some f)
        else
          lockRelease (.frame f)
          pure none) (Got t c page) := by
  refine tri_fact (fun w _ hw => And.intro hw.2.sector hw.2.held.back) fun ⟨hsec, hb⟩ => ?_
  refine triple_bind (R := fun _ w => Ctx t c w ∧ Locked G t f q r w)
    (tri_lockRelease (.and stable_ctx stable_locked) fun w hi hw hl => ⟨nofun, ?_⟩) fun _ => ?_
  · have hs := step_release (G := G) hi hl nofun
    exact ⟨hw.1.step hi hs, hw.2.same { HeldSame.refl G f hw.2.held.page with } hw.2.held.lock rfl⟩
  refine triple_bind (tri_pageOut hsec hb) fun ok => triple_or (triple_pure ?_) (triple_pure ?_)
  · rintro rfl
    refine triple_bind (tri_takeFrame ho hn fun w _ hw => ⟨hw.1, hw.2.1.1, ?_⟩) fun _ =>
      triple_ret fun w _ hw => ⟨hw.1, ?_⟩
    · intro p r' hp hf h
      obtain rfl := Option.mem_unique hw.2.1.2 h
      exact hw.2.2 r' hp hf
    · rintro f' ⟨⟩; exact hw.2
  · rintro rfl
    refine triple_bind (tri_releaseFrame (c := c) fun w _ hw => ⟨hw.ctx, ?_⟩) fun _ =>
      triple_ret fun w _ hw => ⟨hw, nofun⟩
    exact Locked.releasable ⟨hw.parked.held, hw.parked.view, hsec, hw.current⟩

omit ho hn in
theorem tri_advanceHand : Tri G t (Ctx t c) advanceHand fun _ => Ctx t c :=
  triple_act rfl (fun _ => stable_ctx) fun _ hi hw _ _ =>
    ⟨{ hi with }, fun t _ => { Keep.refl G t _ with held := fun f _ _ _ _ hp _ => { HeldSame.refl G f hp with } },
      hw.calm (x := none) hi { Calm.refl t none _ with } nofun⟩

theorem tri_findVictim (n : Nat) : Tri G t (Ctx t c) (findVictim page n) (Got t c page) := by
  induction n with
  | zero =>
    refine triple_bind (R := fun _ => Ctx t c) (tri_lockRelease stable_ctx fun w hi hw hl => ⟨nofun, ?_⟩)
      fun _ => triple_ret fun w _ hw => ⟨hw, nofun⟩
    exact hw.step hi (step_release (G := G) hi hl nofun)
  | succ n ih =>
    refine triple_bind tri_advanceHand fun f => triple_bind tri_tryLockFrame fun b => ?_
    cases b with
    | false => exact triple_pre ih fun w _ hw => hw.1
    | true =>
      refine triple_bind (triple_pre tri_framePage fun w _ hw => ⟨hw.1, hw.2 rfl⟩) fun o => triple_or ?_ ?_
      · refine triple_pure ?_
        rintro rfl
        exact tri_takeFree ho hn
      · refine triple_exists fun q => triple_exists fun r => triple_pure ?_
        rintro rfl
        refine tri_fact (fun w _ hw => hw.2.held.back) fun hb => ?_
        refine triple_bind (tri_pageAccessedRecently hb) fun b => tri_ite (fun _ => ?_) fun _ => ?_
        · exact triple_bind (tri_releaseFrame fun w _ hw => ⟨hw.1, hw.2.releasable⟩) fun _ => ih
        · exact tri_evict ho hn

theorem tri_tryFrameAllocAndLock : Tri G t (Ctx t c) (tryFrameAllocAndLock page) (Got t c page) := by
  refine triple_bind (R := fun _ => Ctx t c) (tri_lockAcquire stable_ctx fun w hi hw hl => ?_) fun _ => ?_
  · exact hw.step hi (step_acquire (u := t) hi hl)
  refine triple_bind (R := fun _ => Ctx t c) (tri_rd (fun _ => stable_ctx) fun _ _ h => h) fun n => ?_
  refine triple_bind (tri_findFree ho hn n 0) fun o => ?_
  cases o with
  | some f => exact triple_ret fun _ _ h => h
  | none => exact triple_pre (tri_findVictim ho hn (n * 2)) fun w _ hw => hw.1

theorem tri_frameAllocTry (n : Nat) : Tri G t (Ctx t c) (frameAllocTry page n) (Got t c page) := by
  induction n with
  | zero => exact triple_ret fun w _ hw => ⟨hw, nofun⟩
  | succ n ih =>
    refine triple_bind (tri_tryFrameAllocAndLock ho hn) fun o => ?_
    cases o with
    | some f =>
      refine tri_assertHeldThen (.and stable_ctx (.forall fun _ => .forall fun _ => stable_taken)) ?_
      exact triple_ret fun _ _ h => h
    | none =>
      refine triple_bind (R := fun _ => Ctx t c) (tri_rd (fun _ => stable_ctx) fun _ _ h => h.1) fun _ => ih

/-- **frame_alloc_and_lock.** A frame it returns is locked and belongs to `page`. -/
theorem tri_frameAllocAndLock : Tri G t (Ctx t c) (frameAllocAndLock page) (Got t c page) :=
  tri_frameAllocTry ho hn 3

end Alloc

/-! ## Locking the frame of a page -/

/-- Page `p` of `t` has no frame, and stays as it is, or its frame is locked. -/
inductive Here (G : Goals) (t : Tid) (c : Known) (p : PageId) (r0 : Page) (w : W) : Prop where
  | out (r : Page) (ev : Evolves r0 r) (frame : r.frame = none) (ctx : Ctx t (c.setOwn p r) w)
  | inn (r : Page) (f : FrameId) (ev : Evolves r0 r) (ctx : Ctx t c w) (locked : Locked G t f p r w)

/-- What reading a page of the process tells. -/
theorem tri_readOwn {r0 : Page} (ho : c.own p = some r0) :
    Tri G t (Ctx t c) (readPage p) fun r w => Ctx t c w ∧ Evolves r0 r ∧ r.thread = t ∧
      (r.frame = none → Ctx t (c.setOwn p r) w) := by
  refine tri_readPage (fun r => .and stable_ctx (.and (.const _) (.and (.const _)
    (.forall fun _ => stable_ctx)))) fun w _ hw => ?_
  obtain ⟨r, h1, h2, h3⟩ := hw.own p r0 ho
  exact ⟨r, h1, hw, h2, h3, fun _ => hw.setOwn h1 h3⟩

/-- **frame_lock.** -/
theorem tri_frameLock {r0 : Page} (ho : c.own p = some r0) (hg : c.gone = none) :
    Tri G t (Ctx t c) (frameLock p) fun _ => Here G t c p r0 := by
  unfold frameLock
  refine triple_bind (tri_readOwn ho) fun r => ?_
  cases hf : r.frame with
  | none => exact triple_ret fun w _ hw => .out r hw.2.1 hf (hw.2.2.2 rfl)
  | some f =>
    refine triple_bind (R := fun _ w => Ctx t c w ∧ FrameLocked G t f w)
      (tri_lockAcquire (.and stable_ctx stable_frameLocked) fun w hi hw hl => ?_) fun _ => ?_
    · exact ⟨hw.1.step hi (step_acquire (u := t) hi hl), frameLocked_acquire hi hl⟩
    refine triple_bind (R := fun r' w => Ctx t c w ∧ FrameLocked G t f w ∧ Evolves r0 r' ∧
      (r'.frame = some f → Locked G t f p r' w)) (tri_readPage (fun r' => ?_) fun w hi hw => ?_) fun r' => ?_
    · exact .and stable_ctx (.and stable_frameLocked (.and (.const _) (.forall fun _ => stable_locked)))
    · obtain ⟨r', h1, h2, h3⟩ := hw.1.own p r0 ho
      refine ⟨r', h1, hw.1, hw.2, h2, fun hf' => ?_⟩
      have hfp := hi.frame.back h1 hf' (hw.1.kept hi h1 h3 hg)
      rcases hw.2.2 with h | ⟨q, r1, hl⟩
      · cases h.symm.trans hfp
      · obtain rfl := Option.mem_unique hl.held.frame hfp
        obtain rfl := Option.mem_unique hl.held.page h1
        exact hl
    refine tri_ite (fun hf' => triple_ret fun w _ hw => .inn r' f hw.2.2.1 hw.1 (hw.2.2.2 hf')) fun _ => ?_
    refine triple_bind (tri_releaseFrame fun w _ hw => ⟨hw.1, hw.2.1.releasable⟩) fun _ => ?_
    refine triple_bind (tri_readOwn ho) fun r'' => ?_
    refine triple_conseq tri_assert (fun _ _ h => h) fun _ w _ hw => ?_
    have hn : r''.frame = none := by simpa using hw.1
    exact .out r'' hw.2.2.1 hn (hw.2.2.2.2 hn)

/-- `frame_unlock`. -/
theorem tri_frameUnlock :
    Tri G t (fun w => Ctx t c w ∧ Locked G t f p r w) (frameUnlock f) fun _ => Ctx t c :=
  tri_assertHeldThen (.and stable_ctx stable_locked)
    (tri_releaseFrame fun _ _ hw => ⟨hw.1, hw.2.releasable⟩)

end Pintos.Vm
