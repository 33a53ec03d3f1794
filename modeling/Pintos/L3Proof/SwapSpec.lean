import Pintos.L3Proof.Prims

/-!
# Specifications of vm/swap.c

`swap_out` and `swap_in` of a page in a frame that the running process has
locked and that is not mapped. After a successful `swap_out` the page's slot
holds the bytes of the frame, and the page has no file any more; `swap_in`
copies the slot back and frees it.
-/
namespace Pintos.Vm

open Pintos.Core Function Logic

variable {G : Goals} {t : Tid} {c : Known} {f : FrameId} {p : PageId} {r : Page} {w w' : W}

/-- Page `p` is not mapped, sits in frame `f`, which `t` has locked, and the
frame holds its data. -/
structure Loaded (G : Goals) (t : Tid) (c : Known) (f : FrameId) (p : PageId) (r : Page)
    (Q : View → Prop) (w : W) : Prop where
  ctx : Ctx t c w
  parked : Parked t f p r Q w
  current : Current G f p r w

variable {Q : View → Prop} {d : Bool} {x : Nat}

theorem stable_loaded : (logic G).Stable t (Loaded G t c f p r Q) := by
  have h := Logic.Stable.and (stable_ctx (G := G) (t := t) (c := c))
    (stable_parkedCurrent (G := G) (t := t) (f := f) (p := p) (r := r) (Q := Q))
  exact fun w w' hw hl => by
    obtain ⟨h1, h2, h3⟩ := h w w' hw ⟨hl.ctx, hl.parked, hl.current⟩
    exact ⟨h1, h2, h3⟩

/-- A step of `t` that leaves the page alone. -/
theorem Loaded.same (h : Loaded G t c f p r Q w) (hi : Inv G w) (hs : Step G t none w w')
    (hh : HeldSame G f p r w w') (hl : w'.st.holder f = w.st.holder f)
    (hf : w'.st.frames f = w.st.frames f) : Loaded G t c f p r Q w' :=
  ⟨h.ctx.step hi hs, h.parked.same hh (hl.trans h.parked.held.lock) hf,
    fun hd => hh.data hd (h.current hd)⟩

theorem Loaded.mono {Q' : View → Prop} (h : Loaded G t c f p r Q w) (hQ : ∀ v, Q v → Q' v) :
    Loaded G t c f p r Q' w :=
  ⟨h.ctx, h.parked.mono hQ, h.current⟩

/-- The page is neither being swapped out nor in. -/
def View.quiet (v : View) : Prop := v.released = false ∧ v.swapping = false

/-! ## The bitmap -/

theorem tri_bitmapScan {P : W → Prop} (hP : (logic G).Stable t P) (n k : Nat) :
    Tri G t (fun w => P w ∧ w.st.locks .swap = some t) (bitmapScan n k) fun o w =>
      (P w ∧ w.st.locks .swap = some t) ∧ ∀ j, o = some j → j < k + n ∧ w.st.swapUsed j = false := by
  induction n generalizing k with
  | zero => exact triple_ret fun w _ hw => ⟨hw, fun _ h => by cases h⟩
  | succ n ih =>
    refine triple_bind (R := fun b w => P w ∧ w.st.locks .swap = some t ∧
      (b = false → w.st.swapUsed k = false)) (tri_rd ?_ ?_) fun b => ?_
    · -- the bit stays clear while `swap_lock` is held
      intro b
      refine hP.and (stable_of_keep fun w w' _ _ hk h => ⟨(hk.lock _).1 h.1, fun hb => ?_⟩)
      exact hk.slot h.1 k (h.2 hb)
    · exact fun w _ hw => ⟨hw.1, hw.2, fun hb => hb⟩
    · cases b with
      | true =>
        refine triple_conseq (ih (k + 1)) (fun w _ hw => ⟨hw.1, hw.2.1⟩) fun o w _ hw => ⟨hw.1, ?_⟩
        intro j hj
        obtain ⟨h1, h2⟩ := hw.2 j hj
        exact ⟨by omega, h2⟩
      | false =>
        refine triple_ret fun w _ hw => ⟨⟨hw.1, hw.2.1⟩, ?_⟩
        rintro j ⟨⟩
        exact ⟨by omega, hw.2.2 rfl⟩

theorem tri_bitmapScanAndFlip :
    Tri G t (fun w => Loaded G t c f p r Q w ∧ w.st.locks .swap = some t) bitmapScanAndFlip
      fun o w => (Loaded G t c f p r Q w ∧ w.st.locks .swap = some t) ∧
        ∀ k, o = some k → w.aux.claim k = some t := by
  have hst := stable_loaded (G := G) (t := t) (c := c) (f := f) (p := p) (r := r) (Q := Q)
  unfold bitmapScanAndFlip
  refine triple_bind (R := fun n w => (Loaded G t c f p r Q w ∧ w.st.swapSlots = n) ∧
    w.st.locks .swap = some t) (tri_rd ?_ ?_) fun n => ?_
  · exact fun n => (hst.and stable_slots).and stable_lock
  · exact fun w _ hw => ⟨⟨hw.1, rfl⟩, hw.2⟩
  refine triple_bind (tri_bitmapScan (hst.and stable_slots) n 0) fun o => ?_
  cases o with
  | none => exact triple_ret fun w _ hw => ⟨⟨hw.1.1.1, hw.1.2⟩, fun _ h => by cases h⟩
  | some k =>
    refine triple_bind (R := fun _ w => (Loaded G t c f p r Q w ∧ w.st.locks .swap = some t) ∧
      w.aux.claim k = some t) (triple_act rfl (fun _ => (hst.and stable_lock).and stable_claim) ?_)
      fun _ => triple_ret fun w _ hw => ⟨hw.1, ?_⟩
    · intro w hi ⟨⟨⟨h1, h2⟩, h3⟩, h4⟩ e _
      obtain ⟨h5, h6⟩ := h4 k rfl
      have hs := step_swapMark hi (by omega : k < w.st.swapSlots) h3 h6
      refine ⟨hs.inv, hs.keep, ⟨h1.same hi hs ?_ rfl rfl, h3⟩, ?_⟩
      · exact { HeldSame.refl G f h1.parked.held.page with }
      · exact update_self ..
    · rintro j ⟨⟩; exact hw.2

/-! ## swap_out -/

/-- The page after `swap_out` has written it to slot `k`. -/
def Page.swapped (r : Page) (k : Nat) : Page :=
  { r with sector := some (k * pageSectors), priv := false, file := none, fileOffset := 0, fileBytes := 0 }

/-- A member other than `frame` and `sector` of the page changes. -/
theorem tri_modLoaded {g : Page → Page} (hs : Sim r (g r)) (hm : r.isMmap = false)
    (hf : (g r).frame = r.frame) (hsec : (g r).sector = r.sector)
    (hfile : (g r).file = none ∨ (g r).file = r.file ∧ ∀ s : St, s.backing (g r) = s.backing r) :
    Tri G t (Loaded G t c f p r Q) (modPage .tau p g) fun _ => Loaded G t c f p (g r) Q := by
  refine tri_modPage (fun w => w.aux) (fun _ _ _ => rfl) stable_loaded (fun _ _ _ => trivial)
    fun w hi hw => ?_
  have hh := hw.parked.held
  have hst := step_modHeld hi hh hw.parked.off hs hm hf hsec
  refine ⟨r, none, hh.page, hst, hw.ctx.step hi hst, ⟨⟨hh.lock, hh.frame, by simp, hf.trans hh.back,
    hh.kept⟩, ?_, ?_⟩, ?_⟩
  · simp only [Off, hs.addr, hs.thread]; exact hw.parked.off
  · simp only [view, hs.addr, hs.thread]; exact hw.parked.view
  · intro hd hmem _ o ho
    rw [hs.thread] at hmem
    have h1 := hw.current hd hmem hm o ho
    simp only [hs.addr, hs.thread]
    refine ⟨h1.1, fun hsome hdirty => ?_⟩
    rcases hfile with hn | ⟨hn, hB⟩
    · simp [hn] at hsome
    · exact (congrFun (hB _) o).trans (h1.2 (by rwa [hn] at hsome) hdirty)

/-- While `swap_out` writes the page: the first `i` sectors are written. -/
structure Writing (G : Goals) (t : Tid) (c : Known) (f : FrameId) (p : PageId) (r : Page) (d : Bool)
    (x i : Nat) (w : W) : Prop where
  loaded : Loaded G t c f p r (fun v => v.released = false ∧ v.swapping = decide (i ≠ pageSectors) ∧
    v.dirty = d ∧ ∀ o < pgSize, v.saved o = v.ram o) w
  disk : ∀ j < i, ∀ b < blockSectorSize, w.st.swapDisk (x + j) b = w.aux.saved p (j * blockSectorSize + b)

theorem stable_writing {i : Nat} (hx : r.sector = some x) (hi : i ≤ pageSectors) :
    (logic G).Stable t (Writing G t c f p r d x i) :=
  fun w w' hw h => by
    refine ⟨stable_loaded w w' hw h.loaded, fun j hj b hb => ?_⟩
    obtain ⟨-, -, u, hu, hk⟩ := hw
    have hs := ((hk t (Ne.symm hu)).heldSame h.loaded.parked.held).1
    rw [hs.disk x hx h.loaded.parked.view.1 j (by omega), hs.saved]
    exact h.disk j hj b hb

theorem tri_swapWriteLoop (hx : r.sector = some x) (n i : Nat)
    (hn : i + n = pageSectors) :
    Tri G t (Writing G t c f p r d x i) (swapWriteLoop p f x n i)
      fun _ => Writing G t c f p r d x pageSectors := by
  induction n generalizing i with
  | zero =>
    obtain rfl : i = pageSectors := by omega
    exact triple_ret fun _ _ h => h
  | succ n ih =>
    refine triple_bind (R := fun _ => Writing G t c f p r d x (i + 1)) (triple_act rfl
      (fun _ => stable_writing hx (by omega)) fun w hi hw e _ => ?_)
      fun _ => ih (i + 1) (by omega)
    dsimp only
    by_cases hsz : x + i < w.st.swapSize
    · rw [if_pos hsz]
      have hl := hw.loaded
      obtain ⟨hrel, hsw, hdirty, hram⟩ := hl.parked.view
      have hsw' : w.aux.swapping p = true := by
        rw [show w.aux.swapping p = _ from hsw]
        simp only [ne_eq, decide_eq_true_eq]; omega
      have hs := step_swapWrite hi hl.parked.held hx hrel hsw' (by omega) (fun o ho => (hram o ho).symm) hw.disk
      simp only [Logic.next, auxStep_swapWrite hsw']
      refine ⟨hs.inv, hs.keep, ⟨hl.ctx.step hi hs, ⟨?_, hl.parked.off, ?_⟩, hl.current⟩, ?_⟩
      · obtain ⟨h1, h2, h3, h4, h5⟩ := hl.parked.held
        exact ⟨h1, h2, h3, h4, h5⟩
      · exact ⟨hrel, by simp [view], hdirty, hram⟩
      · intro j hj b hb
        by_cases hji : j = i
        · subst hji
          have hlt : j * blockSectorSize + b < pgSize := by
            simp only [pageSectors_eq, blockSectorSize, pgSize] at hn hb ⊢; omega
          simp only [St.setSector_swapDisk, update_self]
          exact (hram _ hlt).symm
        · have hne : x + j ≠ x + i := by omega
          simpa [hji] using hw.disk j (by omega) b hb
    · rw [if_neg hsz]
      exact tol_assertion

/-- **swap_out.** The page has a slot with the bytes of its frame, or nothing
has changed; under the condition on the run the latter happens to a page
without a file only if it is all zero. -/
theorem tri_swapOut (hm : r.isMmap = false) (hsec : r.sector = none)
    (hb : r.frame = some f) :
    Tri G t (Loaded G t c f p r fun v => v.quiet ∧ v.dirty = d) (swapOut p) fun b w =>
      (b = true ∧ ∃ k, Loaded G t c f p (r.swapped k)
        (fun v => v.quiet ∧ v.dirty = d ∧ ∀ o < pgSize, v.saved o = v.ram o) w) ∨
      (b = false ∧ Loaded G t c f p r
        (fun v => v.quiet ∧ v.dirty = d ∧ (G.data → r.file = none → ∀ o < pgSize, v.ram o = 0)) w) := by
  unfold swapOut
  have hst := stable_loaded (G := G) (t := t) (c := c) (f := f) (p := p) (r := r)
    (Q := fun v => v.quiet ∧ v.dirty = d)
  refine tri_readThen hst (fun _ _ h => h.parked.held.page) ?_
  simp only [hb]
  refine tri_assertHeldThen hst ?_
  refine triple_bind (R := fun _ w => Loaded G t c f p r (fun v => v.quiet ∧ v.dirty = d) w ∧
    w.st.locks .swap = some t) (tri_lockAcquire (hst.and stable_lock) ?_) fun _ => ?_
  · intro w hi hw hl
    have hs := step_acquire (u := t) hi hl
    exact ⟨hw.same hi hs { HeldSame.refl G f hw.parked.held.page with } rfl rfl, by simp⟩
  refine triple_bind tri_bitmapScanAndFlip fun o => ?_
  refine triple_bind (R := fun _ w => Loaded G t c f p r (fun v => v.quiet ∧ v.dirty = d) w ∧
    ∀ k, o = some k → w.aux.claim k = some t) (tri_lockRelease ?_ ?_) fun _ => ?_
  · exact hst.and (.forall fun k => .forall fun _ => stable_claim)
  · rintro w hi ⟨⟨hw, hl⟩, hk⟩ -
    have hs := step_release (G := G) hi hl (fun _ h => by cases h)
    exact ⟨(fun _ h => by cases h), hw.same hi hs { HeldSame.refl G f hw.parked.held.page with } rfl rfl, hk⟩
  cases o with
  | none =>
    refine triple_bind (R := fun _ w => Loaded G t c f p r (fun v => v.quiet ∧ v.dirty = d ∧
      (G.data → r.file = none → ∀ o < pgSize, v.ram o = 0)) w)
      (triple_act rfl (fun _ => stable_loaded) ?_) fun _ => triple_ret fun w _ hw => .inr ⟨rfl, hw⟩
    rintro w hi ⟨hw, -⟩ e hok
    refine stays hi ⟨hw.ctx, ⟨hw.parked.held, hw.parked.off, hw.parked.view.1, hw.parked.view.2, ?_⟩, hw.current⟩
    intro hd hn
    exact hok.1 hd r f hw.parked.held.page hn hb
  | some k =>
    refine triple_bind (R := fun _ => Writing G t c f p { r with sector := some (k * pageSectors) } d
      (k * pageSectors) 0) (tri_modPage _ (fun _ _ _ => rfl) (stable_writing rfl (by simp))
        (fun _ _ _ => trivial) ?_) fun _ => ?_
    · rintro w hi ⟨hw, hk⟩
      have hh := hw.parked.held
      have hs := step_setSector hi hh hw.parked.off hw.parked.view.1 hsec hm (hk k rfl)
      refine ⟨r, none, hh.page, hs, ⟨hw.ctx.step hi hs, ⟨⟨hh.lock, hh.frame, by simp, hb, hh.kept⟩,
        hw.parked.off, ?_⟩, ?_⟩, fun j hj => by omega⟩
      · refine ⟨hw.parked.view.1.1, by simp [view, pageSectors_eq], hw.parked.view.2, fun o _ => ?_⟩
        simp [view, frameBytes_eq hh.page hb]
      · exact fun hd hmem _ => hw.current hd hmem hm
    refine triple_bind (tri_swapWriteLoop rfl pageSectors 0 (by simp)) fun _ => ?_
    have hmm : ∀ r : Page, r.sector.isSome → r.isMmap = false := by
      intro r hr; simp [Page.isMmap, Option.ne_none_iff_isSome.2 hr]
    -- the members `private`, `file`, `file_offset` and `file_bytes` are cleared
    refine triple_pre (R := Loaded G t c f p { r with sector := some (k * pageSectors) }
      fun v => v.quiet ∧ v.dirty = d ∧ ∀ o < pgSize, v.saved o = v.ram o) ?_ ?_
    · refine triple_bind (tri_modLoaded ⟨rfl, rfl, rfl, ?_, fun _ h => h⟩ ?_ rfl rfl (.inr ⟨rfl, fun _ => rfl⟩))
        fun _ => ?_
      · simp [Page.isMmap]
      · exact hmm _ rfl
      refine triple_bind (tri_modLoaded ⟨rfl, rfl, rfl, ?_, fun _ h => by cases h⟩ ?_ rfl rfl (.inl rfl))
        fun _ => ?_
      · simp [Page.isMmap]
      · exact hmm _ rfl
      refine triple_bind (tri_modLoaded ⟨rfl, rfl, rfl, rfl, fun _ h => h⟩ (hmm _ rfl) rfl rfl (.inl rfl)) fun _ => ?_
      refine triple_bind (tri_modLoaded ⟨rfl, rfl, rfl, rfl, fun _ h => h⟩ (hmm _ rfl) rfl rfl (.inl rfl)) fun _ => ?_
      exact triple_ret fun w _ hw => .inl ⟨rfl, k, hw⟩
    · intro w _ hw
      refine hw.loaded.mono fun v hv => ⟨⟨hv.1, by simpa using hv.2.1⟩, hv.2.2⟩

/-! ## swap_in -/

/-- Page `p` of `t` is not mapped and has a locked frame, into which its data
is being read. -/
structure Filling (G : Goals) (t : Tid) (c : Known) (f : FrameId) (p : PageId) (r : Page)
    (Q : View → Prop) (w : W) : Prop where
  ctx : Ctx t c w
  parked : Parked t f p r Q w
  stored : G.data → StoredAt t p r w

theorem stable_filling (ht : r.thread = t) :
    (logic G).Stable t (Filling G t c f p r Q) := by
  have h := Logic.Stable.and (stable_ctx (G := G) (t := t) (c := c))
    (stable_parkedStored (G := G) (f := f) (p := p) (Q := Q) ht)
  exact fun w w' hw hl => by
    obtain ⟨h1, h2, h3⟩ := h w w' hw ⟨hl.ctx, hl.parked, hl.stored⟩
    exact ⟨h1, h2, h3⟩

/-- The kernel writes to the frame. -/
theorem Filling.setRam {R : View → Prop} {m : Nat → Byte} (h : Filling G t c f p r Q w) (hi : Inv G w)
    (hs : Step G t none w ⟨w.st.setRam f m, w.aux⟩)
    (hQ : R { view f p r w with ram := m }) : Filling G t c f p r R ⟨w.st.setRam f m, w.aux⟩ := by
  obtain ⟨h1, h2, h3, h4, h5⟩ := h.parked.held
  refine ⟨h.ctx.step hi hs, ⟨⟨h1, h2, h3, h4, h5⟩, h.parked.off, ?_⟩, h.stored⟩
  have : view f p r ⟨w.st.setRam f m, w.aux⟩ = { view f p r w with ram := m } := by
    simp only [view, St.setRam_ram, update_self]; rfl
  rwa [this]

theorem tri_swapReadLoop (ht : r.thread = t) (hx : r.sector = some x) (n i : Nat)
    (hn : i + n = pageSectors) :
    Tri G t (Filling G t c f p r fun v => v.quiet ∧ ∀ o < i * blockSectorSize, v.ram o = v.saved o)
      (swapReadLoop f x n i)
      fun _ => Filling G t c f p r fun v => v.quiet ∧ ∀ o < pgSize, v.ram o = v.saved o := by
  induction n generalizing i with
  | zero =>
    obtain rfl : i = pageSectors := by omega
    exact triple_ret fun _ _ h => h
  | succ n ih =>
    refine triple_bind (triple_act rfl (fun _ => stable_filling ht) fun w hi hw e _ => ?_)
      fun _ => ih (i + 1) (by omega)
    dsimp only
    by_cases hsz : x + i < w.st.swapSize
    · rw [if_pos hsz]
      have hs := step_setRam hi hw.parked.held hw.parked.off
        (putSector (w.st.ram f) i (w.st.swapDisk (x + i)))
      obtain ⟨⟨hrel, hsw⟩, hram⟩ := hw.parked.view
      refine ⟨hs.inv, hs.keep, hw.setRam hi hs ⟨⟨hrel, hsw⟩, fun o ho => ?_⟩⟩
      simp only [putSector]
      split
      · rename_i ho'
        -- this sector comes from the slot
        have hlt : o < pgSize := by
          simp only [pageSectors_eq, blockSectorSize, pgSize] at hn ho ⊢; omega
        have hc := hi.swap.contents hw.parked.held.page hx hrel hsw o hlt
        have h1 : o / blockSectorSize = i := by
          simp only [blockSectorSize] at ho' ho ⊢; omega
        have h2 : o % blockSectorSize = o - i * blockSectorSize := by
          simp only [blockSectorSize] at ho' ho ⊢; omega
        rw [h1, h2] at hc
        exact hc
      · rename_i ho'
        have hlt : o < i * blockSectorSize := by
          by_contra hge
          exact ho' ⟨by omega, ho⟩
        exact hram o hlt
    · rw [if_neg hsz]
      exact tol_assertion

/-- The page after `swap_in`. -/
def Page.unswapped (r : Page) : Page := { r with sector := none }

/-- **swap_in.** The frame holds the data of the page again. -/
theorem tri_swapIn (ht : r.thread = t) (hx : r.sector = some x) (hb : r.frame = some f)
    (hfile : r.file = none) :
    Tri G t (Filling G t c f p r View.quiet) (swapIn p)
      fun _ => Loaded G t c f p r.unswapped View.quiet := by
  unfold swapIn
  refine tri_readThen (stable_filling ht) (fun _ _ h => h.parked.held.page) ?_
  simp only [hb, hx]
  refine tri_assertHeldThen (stable_filling ht) ?_
  refine triple_bind (triple_pre (tri_swapReadLoop (c := c) (p := p) ht hx pageSectors 0 (by simp)) ?_) fun _ => ?_
  · exact fun w _ hw => ⟨hw.ctx, hw.parked.mono fun v hv => ⟨hv, by simp⟩, hw.stored⟩
  refine triple_bind (R := fun _ => Filling G t c f p r fun v => v.released = true ∧ v.swapping = false ∧
    ∀ o < pgSize, v.ram o = v.saved o) (triple_act rfl (fun _ => stable_filling ht) fun w hi hw e _ => ?_) fun _ => ?_
  · obtain ⟨k, rfl, -⟩ := hi.swap.slot hw.parked.held.page hx
    have hk : k * pageSectors / pageSectors = k := by rw [pageSectors_eq]; omega
    have hs := step_swapReset hi hw.parked.held hx hw.parked.view.1
    obtain ⟨h1, h2, h3, h4, h5⟩ := hw.parked.held
    rw [hk]
    refine ⟨hs.inv, hs.keep, hw.ctx.step hi hs, ⟨⟨h1, h2, h3, h4, h5⟩, hw.parked.off, ?_⟩, hw.stored⟩
    exact ⟨update_self .., hw.parked.view.1.2, hw.parked.view.2⟩
  refine tri_modPage _ (fun _ _ _ => rfl) stable_loaded ?_ fun w hi hw => ?_
  · intro w hi hw o ho
    rw [frameBytes_eq hw.parked.held.page hb]
    exact hw.parked.view.2.2 o ho
  · obtain ⟨hrel, hsw, hram⟩ := hw.parked.view
    have hh := hw.parked.held
    have hs := step_clearSector hi hh hw.parked.off hrel hsw hfile
    refine ⟨r, none, hh.page, hs, hw.ctx.step hi hs, ⟨⟨hh.lock, hh.frame, update_self .., hb,
      hh.kept⟩, hw.parked.off, update_self .., hsw⟩, fun hd hmem _ o ho => ⟨?_, ?_⟩⟩
    · have hm : r.isMmap = false := by simp [Page.isMmap, hfile]
      have := hw.stored hd (ht ▸ hmem) hm o ho
      rw [hx, Option.isSome_some, if_pos rfl] at this
      exact (hram o ho).trans this
    · intro hsome
      simp [Page.unswapped, hfile] at hsome

end Pintos.Vm
