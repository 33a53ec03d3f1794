import Pintos.L3Proof.StepPage

/-!
# Steps of one process: swap slots

A slot is marked used under `swap_lock` and belongs to the process that
marked it until it is recorded in a page; it is marked free again, without
the lock, before the page forgets it.
-/
namespace Pintos.Vm

open Pintos.Core Function

theorem pageSectors_eq : pageSectors = 8 := rfl

theorem slot_inj {k k' : Nat} (h : k * pageSectors = k' * pageSectors) : k = k' := by
  rw [pageSectors_eq] at h; omega

variable {G : Goals} {t u : Tid} {w : W} {f : FrameId} {p : PageId} {r : Page}

theorem frameBytes_eq {s : St} (hp : s.pages p = some r) (hb : r.frame = some f) :
    s.frameBytes p = s.ram f := by
  obtain ⟨a, ro, th, fr, sec, pr, fi, fo, fb⟩ := r
  simp only at hb
  subst hb
  funext o
  simp only [St.frameBytes, hp]

/-- `bitmap_mark`: process `u` claims slot `k`. -/
theorem step_swapMark (hi : Inv G w) {k : Nat} (hk : k < w.st.swapSlots)
    (hl : w.st.locks .swap = some u) (hu : w.st.swapUsed k = false) :
    Step G u none w ⟨w.st.setUsed k true,
      { w.aux with claim := update w.aux.claim k (some u) }⟩ := by
  have hmono : ∀ {j}, w.st.swapUsed j = true → update w.st.swapUsed k true j = true := by
    intro j hj
    by_cases h : j = k <;> simp_all
  have hother : ∀ {j v}, w.aux.claim j = some v → j ≠ k := by
    rintro j v hj rfl
    simp [(hi.swap.claimed hj).1] at hu
  refine { inv := { hi with swap := { hi.swap with slot := ?_, claimed := ?_ }, leak := ?_ },
           keep := fun t ht => { Keep.refl G t w with
            claim := ?_
            held := fun f _ _ _ _ hp _ => { HeldSame.refl G f hp with }
            slot := ?_ },
           calm := { Calm.refl u none w with } }
  · intro q r0 x hq hx
    obtain ⟨j, h1, h2, h3⟩ := hi.swap.slot hq hx
    exact ⟨j, h1, h2, fun h => hmono (h3 h)⟩
  · intro v j hj
    by_cases hjk : j = k
    · subst hjk
      refine ⟨by simp, hk, fun q r0 hq hx => ?_⟩
      obtain ⟨j', h1, -, h3⟩ := hi.swap.slot hq hx
      obtain rfl := slot_inj h1
      by_contra hr
      simp [h3 (by simpa using hr)] at hu
    · obtain ⟨h1, h2, h3⟩ := hi.swap.claimed (t := v) (k := j) (by simpa [hjk] using hj)
      exact ⟨hmono h1, h2, h3⟩
  · intro hL j hj
    by_cases hjk : j = k
    · subst hjk; left; simp
    · refine (hi.leak hL j (by simpa [hjk] using hj)).imp_left fun h => ?_
      simpa [hjk] using h
  · intro j hj
    simpa [hother hj] using hj
  · intro h
    exact absurd (Option.mem_unique h hl) ht

/-- `p->sector = slot * PAGE_SECTORS`. -/
theorem step_setSector (hi : Inv G w) (h : Held u f p r w) (hoff : Off r w) (hq : Quiet p w)
    (hsec : r.sector = none) (hm : r.isMmap = false) {k : Nat} (hk : w.aux.claim k = some u) :
    Step G u none w ⟨w.st.setPage p (some { r with sector := some (k * pageSectors) }),
      { w.aux with
        claim := update w.aux.claim k none
        swapping := update w.aux.swapping p true
        saved := update w.aux.saved p (w.st.frameBytes p) }⟩ := by
  obtain ⟨hk1, hk2, hk3⟩ := hi.swap.claimed hk
  refine step_setHeld hi h hoff { Sim.refl r with isMmap := by rw [hm]; rfl } (.inl rfl) (by simp [hm])
    { AuxAt.refl p w.aux with swapping := fun q hqp => by simp [hqp], saved := fun q hqp => by simp [hqp] }
    (fun t ht j hj => ?_) ?_ ?_ fun _ h' => by simp [h.back] at h'
  · have hjk : j ≠ k := by
      rintro rfl
      exact ht (Option.mem_unique hj hk)
    simpa [hjk] using hj
  · constructor
    case busy =>
      intro q r0 hq' hb
      rcases update_some_iff.mp hq' with ⟨rfl, rfl⟩ | ⟨hqp, hq'⟩
      · exact ⟨h.kept, f, u, h.back, h.lock⟩
      · exact hi.swap.busy hq' (by simpa [hqp] using hb)
    case slot =>
      intro q r0 x hq' hx
      rcases update_some_iff.mp hq' with ⟨rfl, rfl⟩ | ⟨-, hq'⟩
      · exact ⟨k, by simpa using hx.symm, hk2, fun _ => hk1⟩
      · exact hi.swap.slot hq' hx
    case excl =>
      -- a second page with this slot would have released it
      intro q q' r0 r1 x hq' hq'' hx hx' h1 h2
      rcases update_some_iff.mp hq' with ⟨rfl, rfl⟩ | ⟨-, g1⟩ <;>
        rcases update_some_iff.mp hq'' with ⟨rfl, rfl⟩ | ⟨-, g2⟩
      · rfl
      · obtain rfl : k * pageSectors = x := by simpa using hx
        simp [hk3 q' r1 g2 hx'] at h2
      · obtain rfl : k * pageSectors = x := by simpa using hx'
        simp [hk3 q r0 g1 hx] at h1
      · exact hi.swap.excl g1 g2 hx hx' h1 h2
    case claimed =>
      intro v j hj
      have hjk : j ≠ k := by rintro rfl; simp at hj
      obtain ⟨h1, h2, h3⟩ := hi.swap.claimed (t := v) (k := j) (by simpa [hjk] using hj)
      refine ⟨h1, h2, fun q r0 hq' hx => ?_⟩
      rcases update_some_iff.mp hq' with ⟨rfl, rfl⟩ | ⟨-, hq'⟩
      · exact absurd (slot_inj (by simpa using hx.symm)) hjk
      · exact h3 q r0 hq' hx
    case noFile =>
      intro q r0 hq' hx hfr
      rcases update_some_iff.mp hq' with ⟨rfl, rfl⟩ | ⟨-, hq'⟩
      · simp [h.back] at hfr
      · exact hi.swap.noFile hq' hx hfr
    case contents =>
      intro q r0 x hq' hx h1 h2
      have hqp : q ≠ p := by rintro rfl; simp at h2
      have := hi.swap.contents (by simpa [hqp] using hq') hx h1 (by simpa [hqp] using h2)
      simpa [hqp] using this
  · intro hL j hj
    by_cases hjk : j = k
    · subst hjk
      exact .inr ⟨p, { r with sector := some (j * pageSectors) }, by simp, rfl, hq.1⟩
    · rcases hi.leak hL j hj with h1 | ⟨q, r0, h1, h2, h3⟩
      · left; simpa [hjk] using h1
      · have hqp : q ≠ p := by
          rintro rfl
          obtain rfl := Option.mem_unique h.page h1
          simp [hsec] at h2
        exact .inr ⟨q, r0, by simpa [hqp] using h1, h2, h3⟩

theorem auxStep_swapWrite {i : Nat} {e : Option Nat} {s s' : St} {a : Aux} (hsw : a.swapping p = true) :
    auxStep u (.swapWrite p i) e s s' a =
      { a with swapping := update a.swapping p (i + 1 ≠ pageSectors) } := by
  by_cases hlast : i + 1 = pageSectors
  · simp [auxStep, hlast]
  · simp [auxStep, hlast, ← hsw]

/-- One sector of `swap_out`'s loop. -/
theorem step_swapWrite (hi : Inv G w) (h : Held u f p r w) {x i : Nat} (hx : r.sector = some x)
    (hrel : w.aux.released p = false) (hsw : w.aux.swapping p = true) (hil : i < pageSectors)
    (hram : ∀ o < pgSize, w.st.ram f o = w.aux.saved p o)
    (hpre : ∀ j < i, ∀ b < blockSectorSize, w.st.swapDisk (x + j) b = w.aux.saved p (j * blockSectorSize + b)) :
    Step G u none w ⟨w.st.setSector (x + i) fun o => w.st.ram f (i * blockSectorSize + o),
      { w.aux with swapping := update w.aux.swapping p (i + 1 ≠ pageSectors) }⟩ := by
  obtain ⟨k, rfl, -⟩ := hi.swap.slot h.page hx
  -- the slots of other pages lie elsewhere
  have hother : ∀ {q r0 y j}, q ≠ p → w.st.pages q = some r0 → r0.sector = some y →
      w.aux.released q = false → j < pageSectors → y + j ≠ k * pageSectors + i := by
    intro q r0 y j hqp hq hy hrq hj heq
    obtain ⟨k', rfl, -⟩ := hi.swap.slot hq hy
    have : k' = k := by rw [pageSectors_eq] at heq hj hil; omega
    subst this
    exact hqp (hi.swap.excl hq h.page hy hx hrq hrel)
  refine { inv := { hi with swap := { hi.swap with busy := ?_, contents := ?_ } },
           keep := fun t ht => { Keep.refl G t w with held := ?_ },
           calm := { Calm.refl u none w with } }
  · intro q r0 hq hb
    by_cases hqp : q = p
    · subst hqp
      exact hi.swap.busy hq (.inr hsw)
    · exact hi.swap.busy hq (by simpa [hqp] using hb)
  · intro q r0 y hq hy h1 h2 o ho
    have hj : o / blockSectorSize < pageSectors := by
      rw [pageSectors_eq]; simp only [blockSectorSize, pgSize] at ho ⊢; omega
    by_cases hqp : q = p
    · subst hqp
      obtain rfl := Option.mem_unique h.page hq
      obtain rfl := Option.mem_unique hx hy
      have hlast : i + 1 = pageSectors := by simpa using h2
      have hb : o % blockSectorSize < blockSectorSize := Nat.mod_lt _ (by decide)
      have hdiv : o / blockSectorSize * blockSectorSize + o % blockSectorSize = o := by
        rw [Nat.mul_comm]; exact Nat.div_add_mod o _
      by_cases hij : o / blockSectorSize = i
      · subst hij
        simp only [St.setSector_swapDisk, update_self]
        rw [hdiv]; exact hram o ho
      · have hlt : o / blockSectorSize < i := by omega
        have := hpre _ hlt _ hb
        rw [hdiv] at this
        simpa [hij] using this
    · have := hi.swap.contents hq hy h1 (by simpa [hqp] using h2) o ho
      have hne := hother hqp hq hy h1 hj
      simpa [hne] using this
  · intro f' q r0 hl hf hq hb
    have hqp := h.ne ht hl hq hb
    exact { HeldSame.refl G f' hq with
      swapping := by simp [hqp]
      disk := by
        intro y hy hrq j hj
        exact update_of_ne (hother hqp hq hy hrq hj) _ _ }

/-- `bitmap_reset`: the slot of `p` is free for others. -/
theorem step_swapReset (hi : Inv G w) (h : Held u f p r w) {k : Nat}
    (hx : r.sector = some (k * pageSectors)) (hq : Quiet p w) :
    Step G u none w ⟨w.st.setUsed k false,
      { w.aux with released := update w.aux.released p true }⟩ := by
  -- nobody else has the slot
  have hone : ∀ {q r0}, w.st.pages q = some r0 → r0.sector = some (k * pageSectors) → q ≠ p →
      w.aux.released q = true := by
    intro q r0 hq' hx' hqp
    by_contra hr
    exact hqp (hi.swap.excl hq' h.page hx' hx (by simpa using hr) hq.1)
  have hclaim : ∀ {j v}, w.aux.claim j = some v → j ≠ k := by
    rintro j v hj rfl
    have := (hi.swap.claimed hj).2.2 p r h.page hx
    simp [hq.1] at this
  refine { inv := { hi with
             swap := { hi.swap with busy := ?_, slot := ?_, excl := ?_, claimed := ?_, contents := ?_ }
             leak := ?_ },
           keep := fun t ht => { Keep.refl G t w with held := ?_, slot := ?_ },
           calm := { Calm.refl u none w with } }
  · intro q r0 hq' hb
    by_cases hqp : q = p
    · subst hqp
      obtain rfl := Option.mem_unique h.page hq'
      exact ⟨h.kept, f, u, h.back, h.lock⟩
    · exact hi.swap.busy hq' (by simpa [hqp] using hb)
  · intro q r0 y hq' hy
    obtain ⟨j, rfl, h2, h3⟩ := hi.swap.slot hq' hy
    refine ⟨j, rfl, h2, fun hr => ?_⟩
    have hqp : q ≠ p := by rintro rfl; simp at hr
    have hr' : w.aux.released q = false := by simpa [hqp] using hr
    have hjk : j ≠ k := by rintro rfl; simp [hone hq' hy hqp] at hr'
    simpa [hjk] using h3 hr'
  · intro q q' r0 r1 y h1 h2 h3 h4 h5 h6
    have hqp : q ≠ p := by rintro rfl; simp at h5
    have hqp' : q' ≠ p := by rintro rfl; simp at h6
    exact hi.swap.excl h1 h2 h3 h4 (by simpa [hqp] using h5) (by simpa [hqp'] using h6)
  · intro v j hj
    obtain ⟨h1, h2, h3⟩ := hi.swap.claimed hj
    refine ⟨by simpa [hclaim hj] using h1, h2, fun q r0 hq' hx' => ?_⟩
    by_cases hqp : q = p
    · subst hqp; simp
    · simpa [hqp] using h3 q r0 hq' hx'
  · intro q r0 y h1 h2 h3
    have hqp : q ≠ p := by rintro rfl; simp at h3
    exact hi.swap.contents h1 h2 (by simpa [hqp] using h3)
  · intro hL j hj
    have hjk : j ≠ k := by rintro rfl; simp at hj
    refine (hi.leak hL j (by simpa [hjk] using hj)).imp_right ?_
    rintro ⟨q, r0, h1, h2, h3⟩
    have hqp : q ≠ p := by
      rintro rfl
      obtain rfl := Option.mem_unique h.page h1
      exact hjk (slot_inj (Option.mem_unique h2 hx))
    exact ⟨q, r0, h1, h2, by simpa [hqp] using h3⟩
  · intro f' q r0 hl hf hq' hb
    have hqp := h.ne ht hl hq' hb
    exact { HeldSame.refl G f' hq' with released := by simp [hqp] }
  · intro _ j hj
    by_cases hjk : j = k <;> simp_all

/-- `p->sector = -1`. -/
theorem step_clearSector (hi : Inv G w) (h : Held u f p r w) (hoff : Off r w)
    (hrel : w.aux.released p = true) (hsw : w.aux.swapping p = false) (hfile : r.file = none) :
    Step G u none w ⟨w.st.setPage p (some { r with sector := none }),
      { w.aux with released := update w.aux.released p false }⟩ := by
  have hm : r.isMmap = false := by simp [Page.isMmap, hfile]
  refine step_setHeld hi h hoff { Sim.refl r with isMmap := by simp [Page.isMmap, hfile] } (.inl rfl) (by simp [hm])
    { AuxAt.refl p w.aux with released := fun q hqp => by simp [hqp] } (fun _ _ _ hk => hk) ?_ (fun hL j hj => ?_)
    fun _ h' => by simp [h.back] at h'
  · refine hi.swap.apart (p := p) (fun hq hx => ?_) (fun hq hb => ?_) (fun _ _ => rfl) (fun q hqp => by simp [hqp])
      fun _ _ => rfl
    · rcases update_some_iff.mp hq with ⟨rfl, rfl⟩ | hq
      · cases hx
      · exact hq
    · rcases update_some_iff.mp hq with ⟨rfl, rfl⟩ | hq
      · simp [hsw] at hb
      · exact hq
  · refine (hi.leak hL j hj).imp_right ?_
    rintro ⟨q, r0, h1, h2, h3⟩
    have hqp : q ≠ p := by rintro rfl; simp [hrel] at h3
    exact ⟨q, r0, by simpa [hqp] using h1, h2, by simpa [hqp] using h3⟩

end Pintos.Vm
