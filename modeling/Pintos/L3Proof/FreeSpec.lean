import Pintos.L3Proof.PageSpec

/-!
# Specifications of page_deallocate and page_exit

A page is freed by its owner: the frame it may have is locked, written back
if the page is mapped to a file, and handed back; then the page leaves the
table.
-/
namespace Pintos.Vm

open Pintos.Core Function Logic

variable {G : Goals} {t : Tid} {c : Known} {f : FrameId} {p : PageId} {r : Page} {w w' : W}

/-! ## frame_free -/

/-- Page `p` at `a` has handed back its frame. -/
def Known.giveUp (c : Known) (p : PageId) (a : Nat) : Known :=
  { c with gone := some p, off := fun x => c.proc.status.alive ∧ x = a }

/-- **frame_free** by the owner of the page. -/
theorem tri_frameFree {P : W → Prop} {r0 : Page} (ho : c.own p = some r0) (hg : c.gone = none)
    (hst : (logic G).Stable t P)
    (hP : ∀ w, Inv G w → P w → Ctx t c w ∧ Taken t f (some p) w ∧ ∀ r, w.st.pages p = some r →
      (r.frame = some f ∨ r.frame = none) ∧ Quiet p w ∧ (c.proc.status.alive → Off r w)) :
    Tri G t P (frameFree f) fun _ => Ctx t (c.giveUp p r0.addr) := by
  refine tri_assertHeldThen hst ?_
  refine triple_bind (R := fun _ w => Ctx t (c.giveUp p r0.addr) w ∧ Taken t f none w)
    (tri_setFramePage (fun w => { w.aux with givenUp := update w.aux.givenUp p true })
      (fun w e s' hi hw => ?_) (.and stable_ctx stable_taken) (fun _ => trivial) fun w hi hw => ?_) fun _ => ?_
  · simp only [auxStep, (hP w hi hw).2.1.2]
  · obtain ⟨hc, htk, hpg⟩ := hP w hi hw
    obtain ⟨r, h1, h2, h3⟩ := hc.own p r0 ho
    obtain ⟨hb, hq, hoff⟩ := hpg r h1
    have hs := step_freeFrame hi htk.1 htk.2 h1 h3 hb hq (fun ha => hoff (hc.proc ▸ ha))
    refine ⟨some p, hs, ⟨hc.proc, hc.table, hc.own, ?_, ?_⟩, htk.1, update_self ..⟩
    · rintro a ⟨ha, rfl⟩
      have := hoff ha
      rwa [Off, h3, h2.addr] at this
    · intro q hq'
      by_cases hqp : q = p
      · subst hqp; simp [Known.giveUp]
      · have := hc.gone q hq'
        simp only [hg, reduceCtorEq, decide_false] at this
        simp [hqp, this, Known.giveUp, Ne.symm hqp]
  · refine tri_releaseFrame fun w _ hw => ⟨hw.1, fun q hq => ?_⟩
    cases hw.2.2.symm.trans hq

/-! ## Leaving the table -/

/-- Page `p` has been freed. -/
def Known.erase (c : Known) (p : PageId) : Known where
  proc := c.proc
  table := c.table.map fun T => { T with elems := T.elems.erase p }
  own := update c.own p none
  off := fun _ => False
  gone := none

/-- The page may be freed. -/
structure Freeable (c : Known) (p : PageId) (r0 : Page) : Prop where
  own : c.own p = some r0
  gone : c.gone = some p ∨ (c.gone = none ∧ r0.frame = none)
  off : c.proc.status.alive → r0.frame = none ∨ c.off r0.addr
  covered : r0.addr ∉ c.proc.covered
  mmap : c.proc.status = .running → r0.isMmap = true

theorem ctx_free {r0 : Page} {es : List PageId} (hi : Inv G w) (hc : Ctx t c w) (hf : Freeable c p r0)
    (hT : w.st.tables t = some ⟨true, es⟩) (hleak : G.leak → ∀ r, w.st.pages p = some r → r.sector = none) :
    MovesTo G t w ⟨(w.st.setPage p none).setTable t (some ⟨true, es.erase p⟩), w.aux⟩ (Ctx t (c.erase p)) := by
  obtain ⟨r, h1, h2, h3⟩ := hc.own p r0 hf.own
  have hmem : p ∈ elemsOf c.table := by
    have := hi.table.owned h1
    rwa [h3, hc.table] at this
  have hTc : c.table = some ⟨true, es⟩ := hc.table.symm.trans hT
  have hfr : r.frame = none ∨ w.aux.givenUp p = true := by
    rcases hf.gone with hg | ⟨-, hn⟩
    · exact .inr ((hc.gone p hmem).trans (by simp [hg]))
    · exact .inl (by rw [h2.out hn]; exact hn)
  have hoff : (w.st.procs t).status.alive → Off r w := by
    intro ha
    rcases hf.off (hc.proc ▸ ha) with hn | hoff
    · have hrn : r.frame = none := by rw [h2.out hn]; exact hn
      exact off_of_noFrame hi h1 hrn (h3 ▸ ha)
    · rw [Off, h3, h2.addr]
      exact hc.off _ hoff
  have hcov : r.addr ∉ (w.st.procs t).covered := by rw [h2.addr, hc.proc]; exact hf.covered
  have hrun : (w.st.procs t).status = .running → r.isMmap = true := by
    rw [h2.isMmap, hc.proc]; exact hf.mmap
  obtain ⟨hi', hk⟩ := step_free hi hT h1 h3 hfr hoff hcov hrun fun hl => hleak hl r h1
  refine ⟨hi', hk, hc.proc, by simp [Known.erase, hTc], ?_, (fun _ h => by cases h), ?_⟩
  · intro q r1 hq
    have hqp : q ≠ p := by rintro rfl; simp [Known.erase] at hq
    obtain ⟨r2, g1, g2, g3⟩ := hc.own q r1 (by simpa [Known.erase, hqp] using hq)
    exact ⟨r2, by simpa [hqp] using g1, g2, g3⟩
  · intro q hq
    have hnd : es.Nodup := by simpa [hT, elemsOf] using hi.table.nodup t
    have hq' : q ∈ es.erase p := by simpa [Known.erase, hTc, elemsOf] using hq
    obtain ⟨hqp, hqe⟩ := hnd.mem_erase_iff.1 hq'
    have := hc.gone q (by simpa [hTc, elemsOf] using hqe)
    rcases hf.gone with hg | ⟨hg, -⟩
    · simpa [hg, Known.erase, Ne.symm hqp] using this
    · simpa [hg, Known.erase] using this

theorem tri_freePopped {x : Page} (hf : Freeable c p x) :
    Tri G t (Ctx t c) (freePopped p) fun _ => Ctx t (c.erase p) := by
  refine triple_act rfl (fun _ => stable_ctx) fun w hi hw e hok => ?_
  obtain ⟨r, h1, -, -⟩ := hw.own p x hf.own
  dsimp only
  rw [h1]
  match hT : w.st.tables t with
  | none => exact tol_kernelFault
  | some ⟨false, es⟩ => exact tol_kernelFault
  | some ⟨true, es⟩ => exact ctx_free hi hw hf hT hok.2.1

theorem tri_deletePage {x : Page} (hf : Freeable c p x) :
    Tri G t (Ctx t c) (deletePage p) fun _ => Ctx t (c.erase p) := by
  refine triple_act rfl (fun _ => stable_ctx) fun w hi hw e hok => ?_
  obtain ⟨r, h1, -, h3⟩ := hw.own p x hf.own
  dsimp only
  rw [h1]
  match hT : w.st.tables t with
  | none => exact tol_kernelFault
  | some ⟨false, es⟩ => exact tol_kernelFault
  | some ⟨true, es⟩ =>
    have hin : p ∈ es := by
      have := hi.table.owned h1
      rwa [h3, hT] at this
    simp only [findAddr_eq hi hT h1 hin, Option.elim_some]
    exact ctx_free hi hw hf hT hok.2.1

@[simp] theorem Known.erase_setOwn (c : Known) (p : PageId) (r : Page) : (c.setOwn p r).erase p = c.erase p := by
  simp [Known.erase, Known.setOwn]

@[simp] theorem Known.erase_giveUp (c : Known) (p : PageId) (a : Nat) : (c.giveUp p a).erase p = c.erase p := by
  simp [Known.erase, Known.giveUp]

/-! ## page_deallocate -/

/-- The frame of a page of a mapping is written back and handed back. -/
theorem tri_releaseFrame_inn (hm : r.isMmap = true) (hg : c.gone = none) (ho : c.own p = some r) :
    Tri G t (fun w => Ctx t c w ∧ Locked G t f p r w) (releaseFrame p)
      fun _ => Ctx t (c.giveUp p r.addr) := by
  refine tri_fact (fun w _ hw => And.intro hw.2.sector hw.2.held.back) fun ⟨hsec, hb⟩ => ?_
  unfold releaseFrame
  refine tri_readThen (.and stable_ctx stable_locked) (fun _ _ h => h.2.held.page) ?_
  have hcond : (r.file.isSome && !r.priv) = true := by
    simp only [Page.isMmap, Bool.and_eq_true] at hm
    simp only [hm, Bool.and_self]
  rw [hb]
  refine triple_bind (R := fun _ w => (Ctx t c w ∧ Vacated t f p w) ∨ Loaded G t c f p r View.quiet w)
    (tri_doIf (fun _ => ?_) (by simp [hcond])) fun _ => ?_
  · refine triple_bind (tri_pageOut hsec hb) fun ok => triple_ret fun w _ hw => ?_
    exact hw.imp (fun h => h.2) fun h => h.2
  refine tri_frameFree ho hg (.or (.and stable_ctx stable_vacated) stable_loaded) fun w hi hw => ?_
  rcases hw with ⟨hc, hv⟩ | hw
  · refine ⟨hc, hv.1, fun r' hr' => ?_⟩
    obtain ⟨r1, h1, h2, h3⟩ := hc.own p r ho
    obtain rfl := Option.mem_unique h1 hr'
    have hn : r1.frame = none := h2.frame.resolve_left fun h => hv.2 r1 h1 (h.trans hb)
    exact ⟨.inr hn, quiet_of_noFrame hi h1 hn, fun ha => off_of_noFrame hi h1 hn (h3 ▸ hc.proc ▸ ha)⟩
  · have hh := hw.parked.held
    refine ⟨hw.ctx, ⟨hh.lock, hh.frame⟩, fun r' hr' => ?_⟩
    obtain rfl := Option.mem_unique hh.page hr'
    exact ⟨.inl hb, hw.parked.view, fun _ => hw.parked.off⟩

/-- **page_deallocate** for a page of a mapping that is being removed. -/
theorem tri_pageDeallocate {r0 : Page} {vaddr : Nat} (ho : c.own p = some r0) (hg : c.gone = none)
    (hm : r0.isMmap = true) (haddr : r0.addr = pgRoundDown vaddr) (hcov : r0.addr ∉ c.proc.covered) :
    Tri G t (Ctx t c) (pageDeallocate vaddr) fun _ => Ctx t (c.erase p) := by
  unfold pageDeallocate
  refine triple_bind (tri_pageForAddrOwn (p := p) stable_ctx fun w _ hw => ?_) fun o => triple_pure ?_
  · obtain ⟨r, h1, h2, h3⟩ := hw.own p r0 ho
    exact ⟨r, h1, h3, h2.addr.trans haddr⟩
  rintro (rfl | rfl)
  · exact tri_fail fun _ _ _ => tol_assertion
  refine triple_bind (tri_frameLock ho hg) fun _ w hi hw => ?_
  cases hw with
  | out r ev hn ctx =>
    refine triple_bind (R := fun _ => Ctx t (c.setOwn p r)) (c := releaseFrame p) ?_ (fun _ => ?_) w hi ctx
    · refine tri_readThen stable_ctx (fun _ _ h => (h.setOwn_mine hn).1) ?_
      rw [hn]
      exact triple_ret fun _ _ h => h
    · have := tri_deletePage (G := G) (t := t) (c := c.setOwn p r) (p := p) (x := r)
        ⟨update_self .., .inr ⟨hg, hn⟩, fun _ => .inl hn, ev.addr ▸ hcov,
          fun _ => ev.isMmap.trans hm⟩
      simpa using this
  | inn r f ev ctx locked =>
    obtain ⟨r', h1, h2, h3⟩ := ctx.own p r0 ho
    obtain rfl := Option.mem_unique locked.held.page h1
    refine triple_bind (tri_releaseFrame_inn (c := c.setOwn p r) (ev.isMmap.trans hm) hg
      (update_self ..)) (fun _ => ?_) w hi ⟨ctx.setOwn h1 h3, locked⟩
    have := tri_deletePage (G := G) (t := t) (c := (c.setOwn p r).giveUp p r.addr) (p := p) (x := r)
      ⟨update_self .., .inl rfl, fun ha => .inr ⟨ha, rfl⟩, ev.addr ▸ hcov,
        fun _ => ev.isMmap.trans hm⟩
    simpa using this

/-! ## page_exit -/

/-- **destroy_page** in `process_exit`. -/
theorem tri_destroyPage {x : Page} (ho : c.own p = some x) (hg : c.gone = none)
    (hal : ¬c.proc.status.alive) (hcov : c.proc.covered = []) :
    Tri G t (Ctx t c) (destroyPage p) fun _ => Ctx t (c.erase p) := by
  have hrun : c.proc.status = .running → False := fun h => hal (by rw [h]; exact ⟨nofun, nofun⟩)
  unfold destroyPage
  refine triple_bind (tri_frameLock ho hg) fun _ w hi hw => ?_
  cases hw with
  | out r ev hn ctx =>
    refine tri_readThen stable_ctx (fun _ _ h => (h.setOwn_mine hn).1) ?_ w hi ctx
    rw [hn]
    refine triple_bind (R := fun _ => Ctx t (c.setOwn p r)) (triple_ret fun _ _ h => h) fun _ => ?_
    have := tri_freePopped (G := G) (t := t) (c := c.setOwn p r) (p := p) (x := r)
      ⟨update_self .., .inr ⟨hg, hn⟩, fun ha => absurd ha hal,
        by simp [Known.setOwn, hcov], fun h => (hrun h).elim⟩
    simpa using this
  | inn r f ev ctx locked =>
    obtain ⟨r', h1, h2, h3⟩ := ctx.own p x ho
    obtain rfl := Option.mem_unique locked.held.page h1
    refine tri_readThen (.and stable_ctx stable_locked) (fun _ _ h => h.2.held.page) ?_ w hi
      ⟨ctx.setOwn h1 h3, locked⟩
    rw [locked.held.back]
    refine triple_bind (tri_frameFree (c := c.setOwn p r) (update_self ..) hg
      (.and stable_ctx stable_locked) fun w _ hw => ⟨hw.1, ⟨hw.2.held.lock, hw.2.held.frame⟩, ?_⟩) fun _ => ?_
    · intro r'' hr''
      obtain rfl := Option.mem_unique hw.2.held.page hr''
      exact ⟨.inl hw.2.held.back, hw.2.quiet, fun ha => absurd ha hal⟩
    · have := tri_freePopped (G := G) (t := t) (c := (c.setOwn p r).giveUp p r.addr) (p := p) (x := r)
        ⟨update_self .., .inl rfl, fun ha => absurd ha hal,
          by simp [Known.setOwn, Known.giveUp, hcov], fun h => (hrun h).elim⟩
      simpa using this

theorem tri_nextPage :
    Tri G t (Ctx t c) nextPage fun o w => (o = none ∧ elemsOf c.table = [] ∧ Ctx t c w) ∨
      ∃ p r, o = some p ∧ p ∈ elemsOf c.table ∧ Ctx t (c.setOwn p r) w := by
  refine triple_act rfl (fun o => .or (.and (.const _) (.and (.const _) stable_ctx)) (.exists fun _ =>
    .exists fun _ => .and (.const _) (.and (.const _) stable_ctx))) fun w hi hw e _ => ?_
  dsimp only
  rw [hw.table]
  match hT : c.table, e with
  | none, _ => exact tol_kernelFault
  | some ⟨false, es⟩, _ => exact tol_kernelFault
  | some ⟨true, []⟩, _ => exact stays hi (.inl ⟨rfl, rfl, hw⟩)
  | some ⟨true, q :: es⟩, none => trivial
  | some ⟨true, q :: es⟩, some p =>
    dsimp only
    by_cases hp : p ∈ q :: es
    · rw [if_pos hp]
      obtain ⟨r, h1, h2⟩ := hi.table.page (t := t) (p := p) (by rw [hw.table, hT]; exact hp)
      exact stays hi (.inr ⟨p, r, rfl, hp, hw.setOwn h1 h2⟩)
    · rw [if_neg hp]
      trivial

theorem tri_destroyPages (n : Nat) (hn : (elemsOf c.table).length ≤ n) (hg : c.gone = none)
    (hal : ¬c.proc.status.alive) (hcov : c.proc.covered = []) :
    Tri G t (Ctx t c) (destroyPages n) fun _ w =>
      ∃ c' : Known, (c'.proc = c.proc ∧ c'.gone = none ∧ elemsOf c'.table = []) ∧ Ctx t c' w := by
  induction n generalizing c with
  | zero =>
    refine triple_ret fun w _ hw => ⟨c, ⟨rfl, hg, ?_⟩, hw⟩
    exact List.eq_nil_of_length_eq_zero (by omega)
  | succ n ih =>
    refine triple_bind tri_nextPage fun o => triple_or (triple_pure ?_) (triple_exists fun p =>
      triple_exists fun r => triple_pure ?_)
    · rintro rfl
      exact triple_ret fun w _ hw => ⟨c, ⟨rfl, hg, hw.1⟩, hw.2⟩
    · rintro rfl
      refine triple_pure fun hp => ?_
      have hd := tri_destroyPage (G := G) (t := t) (c := c.setOwn p r) (x := r)
        (update_self ..) hg hal hcov
      rw [Known.erase_setOwn] at hd
      refine triple_bind hd fun _ => ih ?_ rfl hal hcov
      cases hT : c.table with
      | none => simp [hT, elemsOf] at hp
      | some T =>
        have hp' : p ∈ T.elems := by simpa [hT, elemsOf] using hp
        simp only [hT, elemsOf] at hn
        simp only [Known.erase, hT, Option.map_some, elemsOf, List.length_erase_of_mem hp']
        omega

/-- **page_exit.** The process has no page left. -/
theorem tri_pageExit (hg : c.gone = none) (hal : ¬c.proc.status.alive) (hcov : c.proc.covered = []) :
    Tri G t (Ctx t c) pageExit fun _ w =>
      ∃ c' : Known, (c'.proc = c.proc ∧ c'.gone = none ∧ elemsOf c'.table = []) ∧ Ctx t c' w := by
  unfold pageExit
  refine triple_bind (R := fun o w => o = c.table ∧ Ctx t c w)
    (tri_rd (fun _ => .and (.const _) stable_ctx) fun w _ hw => ⟨hw.table, hw⟩) fun o => triple_pure ?_
  intro ho
  cases o with
  | none => exact triple_ret fun w _ hw => ⟨c, ⟨rfl, hg, by rw [← ho]; rfl⟩, hw⟩
  | some h =>
    refine triple_bind tri_assert fun _ => triple_pure fun _ => ?_
    exact tri_destroyPages _ (by rw [← ho]; exact le_rfl) hg hal hcov

end Pintos.Vm
