import Pintos.L3Proof.Keep

/-!
# Steps of one process: locks, frames, page table entries, memory

For each kind of atomic action: under what condition it keeps the invariant,
and what it means for the other processes (`Keep`) and for the process itself
(`Calm`). `Calm u x` says that nothing private to `u` changes, and that its
pages other than `x` change at most as an eviction changes them.
-/
namespace Pintos.Vm

open Pintos.Core Function

structure Calm (u : Tid) (x : Option PageId) (w w' : W) : Prop where
  proc : w'.st.procs u = w.st.procs u
  table : w'.st.tables u = w.st.tables u
  off : ∀ a, (w.st.pte u a).present = false → (w'.st.pte u a).present = false
  own : ∀ p r, x ≠ some p → w.st.pages p = some r → r.thread = u →
    (∃ r', w'.st.pages p = some r' ∧ Evolves r r') ∧ w'.aux.givenUp p = w.aux.givenUp p

structure Step (G : Goals) (u : Tid) (x : Option PageId) (w w' : W) : Prop where
  inv : Inv G w'
  keep : ∀ t, t ≠ u → Keep G t w w'
  calm : Calm u x w w'

theorem Calm.refl (u : Tid) (x : Option PageId) (w : W) : Calm u x w w :=
  ⟨rfl, rfl, fun _ => id, fun _ r _ h _ => ⟨⟨r, h, .refl r⟩, rfl⟩⟩

variable {G : Goals} {t u : Tid} {w w' : W}

theorem Keep.calm (h : Keep G t w w') (x : Option PageId) : Calm t x w w' where
  proc := h.proc
  table := h.table
  off a := fun ha => by
    by_contra hp
    exact absurd ((h.pte a).present (by simpa using hp)) (by simp [ha])
  own p r := fun _ hp ht => h.own p r hp ht

/-- Process `u` has locked frame `f`, which holds page `p`. -/
structure Held (u : Tid) (f : FrameId) (p : PageId) (r : Page) (w : W) : Prop where
  lock : w.st.holder f = some u
  frame : w.st.frames f = some p
  page : w.st.pages p = some r
  back : r.frame = some f
  kept : w.aux.givenUp p = false

/-- Page `p` is not in the middle of `swap_in` or `swap_out`. -/
def Quiet (p : PageId) (w : W) : Prop := w.aux.released p = false ∧ w.aux.swapping p = false

/-- The entry of a page is not present. -/
def Off (r : Page) (w : W) : Prop := (w.st.pte r.thread r.addr).present = false

variable {f : FrameId} {r : Page} {l : Lock}

/-- A page whose frame is locked by one process is not locked by another. -/
theorem Held.ne {p : PageId} (h : Held u f p r w) (ht : t ≠ u)
    {f' : FrameId} {q : PageId} {r' : Page} (hl : w.st.holder f' = some t)
    (hq : w.st.pages q = some r') (hb : r'.frame = some f') : q ≠ p := by
  rintro rfl
  obtain rfl := Option.mem_unique h.page hq
  obtain rfl := Option.mem_unique h.back hb
  exact ht (Option.mem_unique hl h.lock)

/-! ## Locks -/

theorem holder_setLock_none {s : St} (h : (s.setLock l (some u)).holder f = none) :
    s.holder f = none := by
  by_cases hl : Lock.frame f = l <;> simp_all [St.holder]

/-- A lock that `t` does not hold changes hands. -/
theorem keep_setLock {o : Option Tid} (hl : w.st.locks l ≠ some t) (ho : o ≠ some t) :
    Keep G t w ⟨w.st.setLock l o, w.aux⟩ :=
  { Keep.refl G t w with
    held := fun f _ _ _ _ hp _ => { HeldSame.refl G f hp with }
    lock := fun l' => by
      by_cases h : l' = l
      · subst h; simp [hl, ho]
      · simp [update_of_ne h] }

theorem step_acquire (hi : Inv G w) (hl : w.st.locks l = none) :
    Step G u none w ⟨w.st.setLock l (some u), w.aux⟩ where
  inv := { hi with
    frame := { hi.frame with free := fun h => hi.frame.free (holder_setLock_none h) }
    swap := { hi.swap with
      busy := by
        intro p r hp hb
        obtain ⟨h1, f, v, h2, h3⟩ := hi.swap.busy hp hb
        refine ⟨h1, f, v, h2, ?_⟩
        by_cases h : Lock.frame f = l <;> simp_all [St.holder] }
    data := fun hd => { hi.data hd with
      inn := fun h1 h2 h3 h4 h5 h6 =>
        (hi.data hd).inn h1 h2 h3 h4 h5 (h6.imp_left holder_setLock_none) } }
  keep t ht := keep_setLock (by simp [hl]) (by simp [ht.symm])
  calm := { Calm.refl u none w with }

/-- What must hold of a frame when its lock is released. -/
def Releasable (G : Goals) (f : FrameId) (w : W) : Prop :=
  ∀ p, w.st.frames f = some p → ∃ r, w.st.pages p = some r ∧ r.frame = some f ∧ r.sector = none ∧
    w.aux.givenUp p = false ∧ Quiet p w ∧ (G.data → DataAt w p r f)

theorem step_release (hi : Inv G w) (hl : w.st.locks l = some u)
    (hf : ∀ f, l = .frame f → Releasable G f w) :
    Step G u none w ⟨w.st.setLock l none, w.aux⟩ where
  inv := { hi with
    frame := { hi.frame with
      free := by
        intro f p h hp
        by_cases hlf : Lock.frame f = l
        · obtain ⟨r, h1, h2, h3, h4, -⟩ := hf f hlf.symm p hp
          exact ⟨r, h1, h2, h3, h4⟩
        · exact hi.frame.free (by simpa [St.holder, hlf] using h) hp }
    swap := { hi.swap with
      busy := by
        intro p r hp hb
        obtain ⟨h1, f, v, h2, h3⟩ := hi.swap.busy hp hb
        refine ⟨h1, f, v, h2, ?_⟩
        by_cases hlf : Lock.frame f = l
        · obtain ⟨r', -, -, -, -, hq, -⟩ := hf f hlf.symm p (hi.frame.back hp h2 h1)
          simp [hq.1, hq.2] at hb
        · simpa [St.holder, hlf] using h3 }
    data := fun hd => { hi.data hd with
      inn := by
        intro t p r f h1 h2 h3 h4 h5 h6
        by_cases hlf : Lock.frame f = l
        · obtain ⟨r', hr', -, -, -, -, hdat⟩ := hf f hlf.symm p (hi.frame.back h2 h4 h5)
          obtain rfl := Option.mem_unique h2 hr'
          obtain ⟨r0, hr0, rfl⟩ := hi.table.page h1
          obtain rfl := Option.mem_unique h2 hr0
          exact hdat hd h1 h3
        · exact (hi.data hd).inn h1 h2 h3 h4 h5 (h6.imp_left (by simp [St.holder, hlf])) } }
  keep t ht := keep_setLock (by simp [hl, ht.symm]) (by simp)
  calm := { Calm.refl u none w with }

/-! ## The `page` member of a frame -/

/-- `f->page = q` for a page that has no frame, in a locked frame that no page
has. -/
theorem step_takeFrame (hi : Inv G w) {q : PageId}
    (hl : w.st.holder f = some u) (hq : w.st.pages q = some r) (hr : r.frame = none)
    (hf : ∀ p r', w.st.pages p = some r' → r'.frame = some f → w.aux.givenUp p = true) :
    Step G u none w ⟨w.st.setFrame f (some q), w.aux⟩ where
  inv := { hi with
    frame := {
      free := by
        intro f' p h hp
        have : f' ≠ f := by rintro rfl; cases h.symm.trans hl
        exact hi.frame.free h (by simpa [this] using hp)
      back := by
        intro p r' f' hp hb hg
        have : f' ≠ f := by rintro rfl; simp [hf p r' hp hb] at hg
        simpa [this] using hi.frame.back hp hb hg
      gone := by
        intro p r' f' hp hb hg
        by_cases h : f' = f
        · subst h
          have : q ≠ p := by rintro rfl; simp_all
          simpa using this
        · simpa [h] using hi.frame.gone hp hb hg } }
  keep t ht := { Keep.refl G t w with
    held := fun f _ _ _ _ hp _ => { HeldSame.refl G f hp with }
    frame := by
      intro f' h
      have : f' ≠ f := by rintro rfl; exact ht (Option.mem_unique h hl)
      simp [this] }
  calm := { Calm.refl u none w with }

/-- `f->page = NULL` in `frame_free`: the page that had the frame hands it back. -/
theorem step_freeFrame (hi : Inv G w) {p : PageId}
    (hl : w.st.holder f = some u) (hf : w.st.frames f = some p) (hp : w.st.pages p = some r)
    (ht : r.thread = u) (hb : r.frame = some f ∨ r.frame = none) (hq : Quiet p w)
    (hoff : (w.st.procs u).status.alive → Off r w) :
    Step G u (some p) w ⟨w.st.setFrame f none,
      { w.aux with givenUp := update w.aux.givenUp p true }⟩ where
  inv := { hi with
    frame := {
      free := by
        intro f' q h hq'
        have hne : f' ≠ f := by rintro rfl; cases h.symm.trans hl
        obtain ⟨r', h1, h2, h3, h4⟩ := hi.frame.free h (by simpa [hne] using hq')
        refine ⟨r', h1, h2, h3, ?_⟩
        have : q ≠ p := by rintro rfl; simp_all
        simpa [this] using h4
      back := by
        intro q r' f' hq' hb' hg
        have hne : q ≠ p := by rintro rfl; simp at hg
        simp only [update_of_ne hne] at hg
        have := hi.frame.back hq' hb' hg
        have hff : f' ≠ f := by rintro rfl; simp_all
        simpa [hff] using this
      gone := by
        intro q r' f' hq' hb' hg
        by_cases hff : f' = f
        · subst hff; simp
        · simp only [St.setFrame_frames, update_of_ne hff]
          by_cases hne : q = p
          · subst hne; simp_all
          · simp only [update_of_ne hne] at hg
            exact hi.frame.gone hq' hb' hg }
    pte := {
      page := by
        intro t a ha hpr
        obtain ⟨q, r', h1, h2, h3, h4, h5, h6⟩ := hi.pte.page ha hpr
        refine ⟨q, r', h1, h2, h3, h4, h5, ?_⟩
        have : q ≠ p := by
          rintro rfl
          obtain ⟨r0, h0, h0'⟩ := hi.table.page h1
          simp_all [Off]
        simpa [this] using h6 }
    swap := { hi.swap with
      busy := by
        intro q r' hq' hbz
        obtain ⟨h1, h2⟩ := hi.swap.busy hq' hbz
        have : q ≠ p := by rintro rfl; simp [hq.1, hq.2] at hbz
        exact ⟨by simpa [this] using h1, h2⟩ }
    data := fun hd => { hi.data hd with
      inn := by
        intro t q r' f' h1 h2 h3 h4 h5 h6
        have : q ≠ p := by rintro rfl; simp at h5
        exact (hi.data hd).inn h1 h2 h3 h4 (by simpa [this] using h5) h6 } }
  keep t htu := { Keep.refl G t w with
    frame := by
      intro f' h
      have : f' ≠ f := by rintro rfl; exact htu (Option.mem_unique h hl)
      simp [this]
    own := by
      intro q r' hq' ht'
      have : q ≠ p := by rintro rfl; simp_all
      exact ⟨⟨r', hq', .refl r'⟩, by simp [this]⟩
    held := by
      intro f' q r' hl' hf' hq' hb'
      have : q ≠ p := by rintro rfl; simp_all
      exact { HeldSame.refl G f' hq' with givenUp := by simp [this] } }
  calm := { Calm.refl u (some p) w with
    own := by
      intro q r' hx hq' ht'
      have : q ≠ p := by rintro rfl; simp at hx
      exact ⟨⟨r', hq', .refl r'⟩, by simp [this]⟩ }

end Pintos.Vm
