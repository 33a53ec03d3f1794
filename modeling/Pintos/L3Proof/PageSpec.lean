import Pintos.L3Proof.EvictSpec

/-!
# Specifications of vm/page.c

`page_in` and `page_lock` bring a page of the running process into a frame
and map it; `page_deallocate` and `page_exit` free pages. While one of them
runs, pages of the process may be evicted by others.
-/
namespace Pintos.Vm

open Pintos.Core Function Logic

variable {G : Goals} {t : Tid} {c : Known} {f : FrameId} {p : PageId} {r : Page} {w w' : W}

/-! ## Paging in -/

/-- Page `p` may change. -/
def Known.forget (c : Known) (p : PageId) : Known := { c with own := update c.own p none }

theorem Ctx.forget (h : Ctx t c w) (p : PageId) : Ctx t (c.forget p) w := { h with
  own := by
    intro q r0 hq
    have hqp : q ≠ p := by rintro rfl; simp [Known.forget] at hq
    exact h.own q r0 (by simpa [Known.forget, hqp] using hq) }

/-- While a page is read from its file: the first `n` bytes are there. -/
structure Reading (G : Goals) (t : Tid) (c : Known) (f : FrameId) (p : PageId) (r : Page) (n : Nat)
    (w : W) : Prop where
  filling : Filling G t c f p r View.quiet w
  bytes : G.data → p ∈ w.st.table t → r.isMmap = false → ∀ o < pgSize,
    (if o < n then w.st.ram f o else 0) = w.aux.mem t (r.addr + o)

theorem stable_reading {n : Nat} (ht : r.thread = t) : (logic G).Stable t (Reading G t c f p r n) :=
  fun w w' hw h => by
    refine ⟨stable_filling ht w w' hw h.filling, fun hd hm hmm o ho => ?_⟩
    obtain ⟨-, -, u, hu, hk⟩ := hw
    have hk := hk t (Ne.symm hu)
    have hs := (hk.heldSame h.filling.parked.held).1
    rw [(hs.off h.filling.parked.off).2.2, hk.mem]
    exact h.bytes hd (by simpa only [St.table, hk.table] using hm) hmm o ho

/-- The frame is filled: what has been read, and zeros after it. -/
theorem tri_zeroFill {n : Nat} (ht : r.thread = t) (hsec : r.sector = none) :
    Tri G t (Reading G t c f p r n) (modRam f fun m o => if n ≤ o ∧ o < pgSize then 0 else m o)
      fun _ => Loaded G t c f p r View.quiet := by
  refine tri_modRam (p := p) stable_loaded fun w hi hw => ?_
  have hh := hw.filling.parked.held
  have hs := step_setRam hi hh hw.filling.parked.off fun o =>
    if n ≤ o ∧ o < pgSize then 0 else w.st.ram f o
  have hfill := hw.filling.setRam (R := View.quiet) hi hs hw.filling.parked.view
  refine ⟨⟨r, hh, hw.filling.parked.off⟩, hfill.ctx, hfill.parked, fun hd hmem hm o ho => ?_⟩
  have hmem' : p ∈ w.st.table t := ht ▸ hmem
  have h1 := hw.bytes hd hmem' hm o ho
  have h2 := hw.filling.stored hd hmem' hm o ho
  rw [hsec] at h2
  refine ⟨?_, fun _ _ => h2⟩
  simp only [St.setRam_ram, update_self, ht, ← h1]
  by_cases hn : o < n
  · simp [hn]
  · simp [ho, Nat.le_of_not_lt hn]

/-- `file_read_at` of a page. -/
theorem tri_fileReadAt {g : FileId} (ht : r.thread = t) (hsec : r.sector = none) (hf : r.file = some g) :
    Tri G t (Filling G t c f p r View.quiet) (fileReadAt p g f r.fileBytes r.fileOffset)
      fun n => Reading G t c f p r n := by
  refine triple_act rfl (fun _ => stable_reading ht) fun w hi hw e hok => ?_
  have hh := hw.parked.held
  obtain ⟨F, hF⟩ : ∃ F, w.st.files g = some F := by
    cases hm : r.isMmap with
    | true =>
      obtain ⟨g', h1, h2⟩ := hi.file.mmap hh.page hm
      obtain rfl := Option.mem_unique hf h1
      exact Option.isSome_iff_exists.1 h2.1
    | false =>
      obtain ⟨-, F, h1, -⟩ := hi.file.seg hh.page hm hf
      exact ⟨F, h1⟩
  simp only [hF]
  set n := transferred r.fileOffset (inFile (w.st.inodes F.inode) r.fileBytes r.fileOffset) e.isSome with hn
  have hs := step_setRam hi hh hw.parked.off fun o =>
    if o < n then (w.st.inodes F.inode).data (r.fileOffset + o) else w.st.ram f o
  refine ⟨hs.inv, hs.keep, hw.setRam hi hs hw.parked.view, fun hd hmem hm o ho => ?_⟩
  have h2 := hw.stored hd hmem hm o ho
  have hall : e.isSome := hok.1 hd
  simp only [hsec, Option.isSome_none, Bool.false_eq_true, if_false, St.backing, hf, St.fileByte, hF, ht] at h2
  simp only [transferred, hall, if_true] at hn
  simp only [Logic.next, St.setRam_ram, update_self]
  rw [← hn] at h2
  by_cases hon : o < n
  · simp only [hon, if_true] at h2 ⊢; exact h2
  · simp only [hon, if_false] at h2 ⊢; exact h2

/-- **Filling a frame.** The data of the page comes from its swap slot, its
file, or is zero. -/
theorem tri_fillFrame (ht : r.thread = t) (hb : r.frame = some f)
    (hnf : r.sector.isSome → r.file = none) :
    Tri G t (Filling G t c f p r View.quiet) (fillFrame p f)
      fun _ => Loaded G t c f p r.unswapped View.quiet := by
  unfold fillFrame
  refine tri_readThen (stable_filling ht) (fun _ _ h => h.parked.held.page) ?_
  cases hsec : r.sector with
  | some x => exact tri_swapIn ht hsec hb (hnf (by simp [hsec]))
  | none =>
    have hr : r.unswapped = r := by rw [Page.unswapped, ← hsec]
    rw [hr]
    cases hf : r.file with
    | some g => exact triple_bind (tri_fileReadAt ht hsec hf) fun n => tri_zeroFill ht hsec
    | none =>
      have := tri_zeroFill (G := G) (c := c) (f := f) (p := p) (n := 0) ht hsec
      simp only [Nat.zero_le, true_and] at this
      refine triple_pre this fun w _ hw => ⟨hw, fun hd hmem hm o ho => ?_⟩
      have h2 := hw.stored hd hmem hm o ho
      simpa [hsec, St.backing, hf, ht] using h2

/-- The page in frame `f`, with its data there. -/
def Page.paged (r : Page) (f : FrameId) : Page := { r with frame := some f, sector := none }

section Insert
variable {r0 : Page} (ho : c.own p = some r0) (hn : r0.frame = none)
include ho hn

/-- `p->frame = NULL` when no frame was found: the page had none. -/
theorem tri_setNoFrame : Tri G t (Ctx t c) (setPageFrame p none) fun _ => Ctx t c := by
  refine tri_modPage (fun w => w.aux) (fun _ _ _ => rfl) stable_ctx (fun _ _ _ => trivial) fun w hi hw => ?_
  have hp := (hw.mine ho hn).1
  have hr : { r0 with frame := none } = r0 := by rw [← hn]
  have hsame : w.st.setPage p (some r0) = w.st := by rw [St.setPage, ← hp, update_eq_self]
  exact ⟨r0, none, hp, by rw [hr, hsame]; exact ⟨hi, fun _ _ => .refl .., .refl ..⟩, by rw [hr, hsame]; exact hw⟩

/-- `p->frame = f` for the frame that was locked for `p`. -/
theorem tri_insertFrame (hg : c.gone = none) (ha : c.proc.status.alive) :
    Tri G t (Got t c p (some f)) (setPageFrame p (some f)) fun _ w =>
      (r0.thread = t ∧ (r0.sector.isSome → r0.file = none)) ∧
        Filling G t (c.forget p) f p { r0 with frame := some f } View.quiet w := by
  refine tri_fact (fun w _ hw => (hw.1.mine ho hn).2) fun ht => ?_
  refine tri_modPage (fun w => w.aux) (fun _ _ _ => rfl) (.and (.const _) (stable_filling ht))
    (fun _ _ _ => trivial) fun w hi hw => ?_
  obtain ⟨hc, htk⟩ := hw
  obtain ⟨hl, hf⟩ := htk f rfl
  have hp := (hc.mine ho hn).1
  have hk := hc.kept hi hp ht hg
  have hal : (w.st.procs t).status.alive := hc.proc ▸ ha
  have hs := step_insertFrame hi hl hf hp ht hn hk hal
  refine ⟨r0, some p, hp, hs, ⟨ht, fun hx => hi.swap.noFile hp hx hn⟩, ?_, ?_, ?_⟩
  · refine (hc.forget p).calm hi hs.calm fun q hq => ?_
    simp only [Option.some.injEq] at hq
    subst hq
    exact ⟨by simp [Known.forget], rfl⟩
  · have hoff : Off r0 w := off_of_noFrame hi hp hn (ht ▸ hal)
    have hq : Quiet p w := quiet_of_noFrame hi hp hn
    exact ⟨⟨hl, hf, update_self .., rfl, hk⟩, hoff, hq⟩
  · intro hd hmem hm
    have hst : Stored w.st.backing w.aux.saved w.aux.mem p r0 := (hi.data hd).out hmem hp hm hn
    exact hst

/-- **do_page_in.** The page gets a locked frame with its data. -/
theorem tri_doPageIn (hg : c.gone = none) (ha : c.proc.status.alive) :
    Tri G t (Ctx t c) (doPageIn p) fun b w => (b = false ∧ Ctx t c w) ∨
      (b = true ∧ ∃ f, Loaded G t (c.forget p) f p (r0.paged f) View.quiet w) := by
  unfold doPageIn
  refine triple_bind (tri_frameAllocAndLock ho hn) fun o => ?_
  cases o with
  | none =>
    exact triple_bind (triple_pre (tri_setNoFrame ho hn) fun w _ hw => hw.1) fun _ =>
      triple_ret fun w _ hw => .inl ⟨rfl, hw⟩
  | some f =>
    refine triple_bind (tri_insertFrame ho hn hg ha) fun _ => triple_pure fun ⟨ht, hnf⟩ => ?_
    refine triple_bind (tri_fillFrame ht rfl hnf) fun _ => triple_ret fun w _ hw => ?_
    exact .inr ⟨rfl, f, hw⟩

end Insert

/-! ## Mapping a page -/

/-- No entry is known not to be present. -/
def Known.noOff (c : Known) : Known := { c with off := fun _ => False }

/-- **pagedir_set_page** for a page in a locked frame that is not mapped: the
entry is never present already. -/
theorem tri_pagedirSetPage (ht : r.thread = t) (hsec : r.sector = none) :
    Tri G t (Loaded G t c f p r View.quiet) (pagedirSetPage p r.addr f (!r.readOnly)) fun _ w =>
      Ctx t c.noOff w ∧ Locked G t f p r w := by
  refine triple_act rfl (fun _ => .and stable_ctx stable_locked) fun w hi hw e hok => ?_
  have hh := hw.parked.held
  dsimp only
  cases hpd : w.st.pagedirs t with
  | none => exact tol_assertion
  | some pd =>
    have hoff : (pd.pte r.addr).present = false := by
      have := hw.parked.off
      rwa [Off, ht, St.pte_of hpd] at this
    dsimp only
    split_ifs with h1 h2 h3
    · exact tol_assertion
    · exact stays hi ⟨{ hw.ctx with off := fun _ h => by cases h }, hh, hw.parked.view, hsec,
        hw.current⟩
    · exact absurd h3 (by simp [hoff])
    · obtain ⟨hi', hk⟩ := inv_installPte hi hh ht hpd hw.current (fun hd hs => hok.1 hd r hh.page hs)
        (update pd.table (r.addr / 2 ^ 22) true)
      refine ⟨hi', hk, ?_, ⟨hh.lock, hh.frame, hh.page, hh.back, hh.kept⟩, hw.parked.view, hsec, ?_⟩
      · exact ⟨hw.ctx.proc, hw.ctx.table, hw.ctx.own, (fun _ h => by cases h), hw.ctx.gone⟩
      · intro hd hmem hm
        refine (hi'.data hd).inn hmem hh.page hm hh.back hh.kept (.inr ?_)
        simp only [ht, St.pte_setPagedir, update_self, Pte.user]

/-! ## Allocating and finding a page -/

/-- Page `p` with members `r` has been entered into the table. -/
def Known.alloc (c : Known) (p : PageId) (r : Page) (es : List PageId) : Known :=
  { c with table := some ⟨true, p :: es⟩, own := update c.own p (some r) }

theorem Ctx.alloc {es : List PageId} {vaddr : Nat} {ro : Bool} (h : Ctx t c w) (hg : c.gone = none)
    (hT : c.table = some ⟨true, es⟩) (hp : w.st.pages p = none) :
    Ctx t (c.alloc p (.fresh t vaddr ro) es)
      ⟨w.st.allocated t p vaddr ro es, w.aux.allocated t p vaddr⟩ where
  proc := h.proc
  table := by simp [Known.alloc]
  own := by
    intro q r0 hq
    by_cases hqp : q = p
    · subst hqp
      obtain rfl : Page.fresh t vaddr ro = r0 := by simpa [Known.alloc] using hq
      exact ⟨_, by simp, .refl _, rfl⟩
    · obtain ⟨r, h1, h2, h3⟩ := h.own q r0 (by simpa [Known.alloc, hqp] using hq)
      exact ⟨r, by simpa [hqp] using h1, h2, h3⟩
  off := h.off
  gone := by
    intro q hq
    by_cases hqp : q = p
    · subst hqp; simp [Known.alloc, hg]
    · have hq' : q ∈ elemsOf c.table := by
        simpa [Known.alloc, elemsOf, hT, hqp] using hq
      exact (update_of_ne hqp _ _).trans (h.gone q hq')

/-- A stable fact about files. -/
structure FileFact (G : Goals) (t : Tid) (X : W → Prop) : Prop where
  stable : (logic G).Stable t X
  same : ∀ {w w' : W}, w'.st.files = w.st.files → (∀ u, (w'.st.procs u).fds = (w.st.procs u).fds ∧
    (w'.st.procs u).binFile = (w.st.procs u).binFile) → X w → X w'

theorem FileFact.true : FileFact G t fun _ => True := ⟨.const _, fun _ _ h => h⟩

/-- **page_allocate.** The new page is the only one at its address. -/
theorem tri_pageAllocate {vaddr : Nat} {ro : Bool} {X : W → Prop} (hX : FileFact G t X) (hg : c.gone = none)
    (hr : G.range → pgSize ≤ pgRoundDown vaddr ∧ pgRoundDown vaddr < physBase) :
    Tri G t (fun w => Ctx t c w ∧ X w) (pageAllocate vaddr ro) fun o w => (o = none ∧ Ctx t c w ∧ X w) ∨
      ∃ p es, o = some p ∧ (c.table = some ⟨true, es⟩ ∧ pgRoundDown vaddr ∉ c.proc.covered ∧
        (G.range → c.proc.status = .running → pgRoundDown vaddr ≠ physBase - pgSize)) ∧
        Ctx t (c.alloc p (.fresh t vaddr ro) es) w ∧ X w := by
  refine triple_act rfl (fun o => .or (.and (.const _) (.and stable_ctx hX.stable)) (.exists fun _ =>
    .exists fun _ => .and (.const _) (.and (.const _) (.and stable_ctx hX.stable))))
    fun w hi hwx e _ => ?_
  have hw := hwx.1
  dsimp only
  cases e with
  | none => exact stays hi (.inl ⟨rfl, hwx⟩)
  | some p =>
    rw [hw.table]
    match hT : c.table with
    | none => exact tol_kernelFault
    | some ⟨false, es⟩ => exact tol_kernelFault
    | some ⟨true, es⟩ =>
      have hTw : w.st.tables t = some ⟨true, es⟩ := hw.table.trans hT
      dsimp only
      by_cases hp : (w.st.pages p).isSome
      · simp only [hp, if_true]
      have hpn : w.st.pages p = none := by simpa using hp
      have hpe : p ∉ w.st.table t := by
        intro hm
        obtain ⟨r0, h1, -⟩ := hi.table.page hm
        simp [hpn] at h1
      simp only [hp, Bool.false_eq_true, if_false]
      by_cases hfind : (w.st.findAddr es (pgRoundDown vaddr)).isSome
      · simp only [hfind, if_true, Logic.next]
        have haux : auxStep t .allocPage (some p) w.st w.st w.aux = w.aux := by
          simp [auxStep, Option.filter, hpe]
        rw [haux]
        exact stays hi (.inl ⟨trivial, hwx⟩)
      · have hfn : w.st.findAddr es (pgRoundDown vaddr) = none := by simpa using hfind
        simp only [hfind, Bool.false_eq_true, if_false, Logic.next]
        have haux : auxStep t .allocPage (some p) w.st (w.st.allocated t p vaddr ro es) w.aux =
            w.aux.allocated t p vaddr := by
          simp [auxStep, Option.filter, St.table, elemsOf, Aux.define, Page.fresh]
        rw [haux]
        obtain ⟨hi', hk⟩ : Inv G ⟨w.st.allocated t p vaddr ro es, w.aux.allocated t p vaddr⟩ ∧ _ :=
          step_alloc hi hTw hpn hfn hr
        have hnew : ∀ {q r0}, q ∈ elemsOf (w.st.tables t) → w.st.pages q = some r0 →
            r0.addr ≠ pgRoundDown vaddr := fun hq hr0 =>
          findAddr_none hfn (by simpa [hTw, elemsOf] using hq) hr0
        refine ⟨hi', hk, .inr ⟨p, es, rfl, ⟨rfl, fun hcov => ?_, fun hG hrun heq => ?_⟩,
          hw.alloc hg hT hpn, hX.same (w := w) rfl (fun _ => ⟨rfl, rfl⟩) hwx.2⟩⟩
        · rw [← hw.proc] at hcov
          obtain ⟨q, r0, h1, h2, h3, -⟩ := hi.map.page hcov
          exact hnew h1 h2 h3
        · rw [← hw.proc] at hrun
          obtain ⟨q, r0, h1, h2, h3, -⟩ := (hi.range hG).stack hrun
          exact hnew h1 h2 (h3.trans heq.symm)

variable {a : Nat} {P : Proc}

theorem tri_hashFind :
    Tri G t (Ctx t c) (hashFind a) fun o w => (o = none ∧ Ctx t c w) ∨
      ∃ p r, o = some p ∧ r.addr = a ∧ Ctx t (c.setOwn p r) w := by
  refine triple_act rfl (fun o => .or (.and (.const _) stable_ctx) (.exists fun _ => .exists fun _ =>
    .and (.const _) (.and (.const _) stable_ctx))) fun w hi hw e _ => ?_
  dsimp only
  match hT : w.st.tables t with
  | none => exact tol_kernelFault
  | some ⟨false, es⟩ => exact tol_kernelFault
  | some ⟨true, es⟩ =>
    refine stays hi ?_
    cases hfind : w.st.findAddr es a with
    | none => exact .inl ⟨rfl, hw⟩
    | some q =>
      obtain ⟨hq, r, hr, ha⟩ := findAddr_some hfind
      have ht := thread_of_mem (t := t) hi hr (by rw [St.table, hT]; exact hq)
      exact .inr ⟨q, r, rfl, ha, hw.setOwn hr ht⟩

/-- A page of the process that is known to be in the table is found. -/
theorem tri_hashFindOwn {P : W → Prop} (hP : (logic G).Stable t P)
    (h : ∀ w, Inv G w → P w → ∃ r, w.st.pages p = some r ∧ r.thread = t ∧ r.addr = a) :
    Tri G t P (hashFind a) fun o w => o = some p ∧ P w := by
  refine triple_act rfl (fun o => .and (.const _) hP) fun w hi hw e _ => ?_
  dsimp only
  match hT : w.st.tables t with
  | none => exact tol_kernelFault
  | some ⟨false, es⟩ => exact tol_kernelFault
  | some ⟨true, es⟩ =>
    obtain ⟨r, h1, h2, rfl⟩ := h w hi hw
    have hin : p ∈ es := by
      have := hi.table.owned h1
      rwa [h2, hT] at this
    exact stays hi ⟨findAddr_eq hi hT h1 hin, hw⟩

/-- What `page_for_addr` found: a page of the table, or a new stack page. -/
def Found (t : Tid) (c : Known) (address : Nat) (p : PageId) (w : W) : Prop :=
  ∃ c' r, (c'.proc = c.proc ∧ c'.gone = none ∧ c'.off = c.off ∧ c'.own p = some r ∧
    r.addr = pgRoundDown address) ∧ Ctx t c' w

theorem pgRoundDown_idem (a : Nat) : pgRoundDown (pgRoundDown a) = pgRoundDown a := by
  simp only [pgRoundDown, pgSize]; omega

theorem tri_pageForAddr {address : Nat} (hg : c.gone = none) :
    Tri G t (Ctx t c) (pageForAddr address) fun o w => (o = none ∧ Ctx t c w) ∨
      ∃ p, o = some p ∧ Found t c address p w := by
  have hnone : Tri G t (Ctx t c) (pure none) fun (o : Option PageId) w => (o = none ∧ Ctx t c w) ∨
      ∃ p, o = some p ∧ Found t c address p w := triple_ret fun w _ hw => .inl ⟨rfl, hw⟩
  unfold pageForAddr
  refine tri_ite (fun hlt => ?_) fun _ => hnone
  refine triple_bind tri_hashFind fun o => triple_or (triple_pure ?_) (triple_exists fun p =>
    triple_exists fun r => triple_pure ?_)
  · rintro rfl
    refine tri_ite (fun hst => ?_) fun _ => hnone
    refine triple_bind (R := fun _ => Ctx t c) (tri_rd (fun _ => stable_ctx) fun _ _ h => h) fun esp => ?_
    refine tri_ite (fun _ => ?_) fun _ => hnone
    refine triple_conseq (tri_pageAllocate .true hg fun _ => ?_) (fun _ _ h => ⟨h, trivial⟩) ?_
    · rw [pgRoundDown_idem]
      simp only [pgRoundDown, pgSize, physBase, stackMax] at hlt hst ⊢; omega
    · rintro o w _ (⟨h, hw, -⟩ | ⟨p, es, rfl, -, hw, -⟩)
      · exact .inl ⟨h, hw⟩
      · refine .inr ⟨p, rfl, c.alloc p _ es, _, ⟨rfl, hg, rfl, update_self .., ?_⟩, hw⟩
        exact pgRoundDown_idem address
  · rintro rfl
    refine triple_ret fun w _ hw => .inr ⟨p, rfl, c.setOwn p r, r,
      ⟨rfl, hg, rfl, update_self .., hw.1⟩, hw.2⟩

/-- `page_for_addr` for an address whose page is known. -/
theorem tri_pageForAddrOwn {P : W → Prop} {address : Nat} (hP : (logic G).Stable t P)
    (h : ∀ w, Inv G w → P w → ∃ r, w.st.pages p = some r ∧ r.thread = t ∧ r.addr = pgRoundDown address) :
    Tri G t P (pageForAddr address) fun o w => (o = none ∨ o = some p) ∧ P w := by
  unfold pageForAddr
  refine tri_ite (fun _ => ?_) fun _ => triple_ret fun w _ hw => ⟨.inl rfl, hw⟩
  refine triple_bind (tri_hashFindOwn hP h) fun o => triple_pure ?_
  rintro rfl
  exact triple_ret fun w _ hw => ⟨.inr rfl, hw⟩

/-! ## page_in -/

/-- Process `t` with descriptor `P`, between two operations on its pages. -/
def Base (t : Tid) (P : Proc) (w : W) : Prop := ∃ c : Known, (c.proc = P ∧ c.gone = none) ∧ Ctx t c w

theorem stable_base : (logic G).Stable t (Base t P) :=
  .exists fun _ => .and (.const _) stable_ctx

theorem Ctx.base (h : Ctx t c w) (hg : c.gone = none) : Base t c.proc w := ⟨c, ⟨rfl, hg⟩, h⟩

theorem Ctx.atRest (h : Ctx t c w) (hg : c.gone = none) : AtRest t w := by
  intro p hp
  simpa [hg] using h.gone p (h.table ▸ hp)

theorem Base.atRest (h : Base t P w) : AtRest t w := by
  obtain ⟨c, ⟨-, hg⟩, hc⟩ := h
  exact hc.atRest hg

theorem stable_atRest : (logic G).Stable t (AtRest t) :=
  stable_of_keep fun w w' hi _ hk h p hp => by
    simp only [St.table, hk.table] at hp
    obtain ⟨r, h1, h2⟩ := hi.table.page hp
    rw [(hk.own p r h1 h2).2]
    exact h p hp

theorem Ctx.setOwn_mine (h : Ctx t (c.setOwn p r) w) (hn : r.frame = none) :
    w.st.pages p = some r ∧ r.thread = t :=
  h.mine (update_self ..) hn

/-- The end of `page_in`. -/
theorem tri_installFrame (ht : r.thread = t) (hsec : r.sector = none) (hb : r.frame = some f)
    (hg : c.gone = none) :
    Tri G t (Loaded G t c f p r View.quiet) (installFrame p) fun _ => Base t c.proc := by
  unfold installFrame
  refine tri_readThen stable_loaded (fun _ _ h => h.parked.held.page) ?_
  rw [hb]
  refine tri_assertHeldThen stable_loaded ?_
  refine triple_bind (tri_pagedirSetPage ht hsec) fun b => ?_
  exact triple_bind tri_frameUnlock fun _ => triple_ret fun w _ hw => hw.base (c := c.noOff) hg

/-- **page_in.** -/
theorem tri_pageIn {faultAddr : Nat} (hg : c.gone = none) (ha : c.proc.status.alive)
    (hoff : c.off (pgRoundDown faultAddr)) :
    Tri G t (Ctx t c) (pageIn faultAddr) fun _ => Base t c.proc := by
  unfold pageIn
  refine triple_bind (R := fun _ => Ctx t c) (tri_rd (fun _ => stable_ctx) fun _ _ h => h) fun b => ?_
  refine tri_ite (fun _ => triple_ret fun w _ hw => hw.base hg) fun _ => ?_
  refine triple_bind (tri_pageForAddr hg) fun o => triple_or (triple_pure ?_) (triple_exists fun p =>
    triple_pure ?_)
  · rintro rfl
    exact triple_ret fun w _ hw => hw.base hg
  rintro rfl
  refine triple_exists fun c' => triple_exists fun r0 => triple_pure ?_
  rintro ⟨hproc, hg', hoff', ho, haddr⟩
  rw [← hproc] at ha ⊢
  refine triple_bind (tri_frameLock ho hg') fun _ w hi hw => ?_
  cases hw with
  | out r ev hn ctx =>
    refine tri_readThen (r := r) stable_ctx (fun _ _ h => (h.setOwn_mine hn).1) ?_ w hi ctx
    rw [hn]
    refine triple_bind (tri_doPageIn (update_self ..) hn hg' ha) fun b =>
      triple_or (triple_pure ?_) (triple_pure ?_)
    · rintro rfl
      exact triple_ret fun w _ hw => hw.base hg'
    · rintro rfl
      refine triple_exists fun f => ?_
      refine tri_fact (fun w _ hw => hw.parked.held.back) fun hb => ?_
      have ht : (r.paged f).thread = t := (ctx.setOwn_mine hn).2
      exact tri_installFrame ht rfl hb hg'
  | inn r f ev ctx locked =>
    obtain ⟨r', h1, h2, h3⟩ := ctx.own p r0 ho
    obtain rfl := Option.mem_unique locked.held.page h1
    have hoffr : Off r w := by
      rw [Off, h3, ev.addr, haddr]
      exact ctx.off _ (hoff' ▸ hoff)
    have hl : Loaded G t c' f p r View.quiet w :=
      ⟨ctx, ⟨locked.held, hoffr, locked.quiet⟩, locked.data⟩
    refine tri_readThen stable_loaded (fun _ _ h => h.parked.held.page) ?_ w hi hl
    rw [locked.held.back]
    exact tri_installFrame h3 locked.sector locked.held.back hg'

/-! ## page_lock and page_unlock -/

/-- The page at `a` is locked into frame `f`. -/
structure LockedAt (G : Goals) (t : Tid) (a : Nat) (f : FrameId) (p : PageId) (r : Page) (w : W) : Prop where
  thread : r.thread = t
  addr : r.addr = pgRoundDown a
  locked : Locked G t f p r w

theorem stable_lockedAt : (logic G).Stable t (LockedAt G t a f p r) :=
  fun w w' hw h => ⟨h.thread, h.addr, stable_locked w w' hw h.locked⟩

/-- A page has been locked in memory, if `b`. -/
def PageLocked (G : Goals) (t : Tid) (P : Proc) (a : Nat) (b : Bool) (w : W) : Prop :=
  Base t P w ∧ (b = true → ∃ f p r, LockedAt G t a f p r w)

theorem tri_lockInFrame {r0 : Page} (ho : c.own p = some r0) (hn : r0.frame = none)
    (hg : c.gone = none) (ha : c.proc.status.alive) (haddr : r0.addr = pgRoundDown a) :
    Tri G t (Ctx t c) (lockInFrame p) (PageLocked G t c.proc a) := by
  unfold lockInFrame
  refine tri_fact (fun w _ hw => (hw.mine ho hn).2) fun ht => ?_
  refine triple_bind (tri_doPageIn ho hn hg ha) fun b => triple_or (triple_pure ?_) (triple_pure ?_)
  · rintro rfl
    exact triple_ret fun w _ hw => ⟨hw.base hg, nofun⟩
  · rintro rfl
    refine triple_exists fun f => ?_
    refine tri_readThen stable_loaded (fun _ _ h => h.parked.held.page) ?_
    refine triple_conseq (tri_pagedirSetPage (c := c.forget p) (f := f) (p := p) (r := r0.paged f) ht rfl)
      (fun _ _ h => h) fun b w _ hw => ⟨hw.1.base (c := (c.forget p).noOff) hg, fun _ => ?_⟩
    exact ⟨f, p, r0.paged f, ht, haddr, hw.2⟩

/-- **page_lock.** -/
theorem tri_pageLock {ww : Bool} (hg : c.gone = none) (ha : c.proc.status.alive) :
    Tri G t (Ctx t c) (pageLock a ww) (PageLocked G t c.proc a) := by
  unfold pageLock
  refine triple_bind (tri_pageForAddr hg) fun o => triple_or (triple_pure ?_) (triple_exists fun p =>
    triple_pure ?_)
  · rintro rfl
    exact triple_ret fun w _ hw => ⟨hw.base hg, nofun⟩
  rintro rfl
  refine triple_exists fun c' => triple_exists fun r0 => triple_pure ?_
  rintro ⟨hproc, hg', -, ho, haddr⟩
  rw [← hproc] at ha ⊢
  refine triple_bind (tri_readOwn ho) fun r1 => tri_ite (fun _ => ?_) fun _ => ?_
  · exact triple_ret fun w _ hw => ⟨hw.1.base hg', nofun⟩
  refine triple_bind (triple_pre (tri_frameLock ho hg') fun w _ hw => hw.1) fun _ w hi hw => ?_
  cases hw with
  | out r ev hn ctx =>
    refine tri_readThen (r := r) stable_ctx (fun _ _ h => (h.setOwn_mine hn).1) ?_ w hi ctx
    rw [hn]
    exact tri_lockInFrame (update_self ..) hn hg' ha (ev.addr.trans haddr)
  | inn r f ev ctx locked =>
    obtain ⟨r', h1, h2, h3⟩ := ctx.own p r0 ho
    obtain rfl := Option.mem_unique locked.held.page h1
    refine tri_readThen (.and stable_ctx stable_locked) (fun _ _ h => h.2.held.page) ?_ w hi ⟨ctx, locked⟩
    rw [locked.held.back]
    exact triple_ret fun w _ hw => ⟨hw.1.base hg', fun _ => ⟨f, p, r, h3, ev.addr.trans haddr, hw.2⟩⟩

/-- **page_unlock.** -/
theorem tri_pageUnlock :
    Tri G t (fun w => Base t P w ∧ LockedAt G t a f p r w) (pageUnlock a) fun _ => Base t P := by
  unfold pageUnlock
  have hst := (stable_base (G := G) (t := t) (P := P)).and
    (stable_lockedAt (G := G) (t := t) (a := a) (f := f) (p := p) (r := r))
  refine triple_bind (tri_pageForAddrOwn (p := p) hst fun w _ hw => ?_) fun o => triple_pure ?_
  · exact ⟨r, hw.2.locked.held.page, hw.2.thread, hw.2.addr⟩
  rintro (rfl | rfl)
  · exact tri_fail fun _ _ _ => tol_assertion
  · refine tri_readThen hst (fun _ _ h => h.2.locked.held.page) ?_
    refine tri_fact (fun w _ hw => hw.2.locked.held.back) fun hb => ?_
    rw [hb]
    rintro w hi ⟨⟨c, ⟨rfl, hg⟩, hc⟩, hl⟩
    exact triple_conseq tri_frameUnlock (fun _ _ h => h) (fun _ w _ hw => hw.base hg) w hi ⟨hc, hl.locked⟩

end Pintos.Vm
