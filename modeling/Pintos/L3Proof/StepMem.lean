import Pintos.L3Proof.StepPage

/-!
# Steps of one process: page table entries and memory

Clearing bits of an entry, installing a frame, writing to a locked frame, and
the loads and stores of a process.
-/
namespace Pintos.Vm

open Pintos.Core Function

/-! ## Addresses -/

theorem pgRoundDown_add {a o : Nat} (ha : pgOfs a = 0) (ho : o < pgSize) : pgRoundDown (a + o) = a := by
  simp only [pgOfs, pgRoundDown, pgSize] at *; omega

theorem pgOfs_add {a o : Nat} (ha : pgOfs a = 0) (ho : o < pgSize) : pgOfs (a + o) = o := by
  simp only [pgOfs, pgSize] at *; omega

theorem pgOfs_lt (a : Nat) : pgOfs a < pgSize := Nat.mod_lt _ (by decide)

theorem pgRoundDown_add_pgOfs (a : Nat) : pgRoundDown a + pgOfs a = a := by
  simp only [pgOfs, pgRoundDown, pgSize]; omega

theorem pgOfs_pgRoundDown (a : Nat) : pgOfs (pgRoundDown a) = 0 := by
  simp only [pgOfs, pgRoundDown, pgSize]; omega

/-! ## Data of other pages -/

/-- `mem'` differs from `mem` at most in the page at `a` of process `u`. -/
def MemOut (u : Tid) (a : Nat) (mem mem' : Tid → Nat → Byte) : Prop :=
  ∀ t x, (t ≠ u ∨ pgRoundDown x ≠ a) → mem' t x = mem t x

section Data
variable {ram : FrameId → Nat → Byte} {B : Page → Nat → Byte} {pd pd' : Tid → Option Pagedir}
  {saved : PageId → Nat → Byte} {mem mem' : Tid → Nat → Byte} {u : Tid} {a : Nat} {r : Page}
  {f : FrameId} {p : PageId}

theorem InRam.congr (h : InRam ram B pd mem r f)
    (hd : (pteOf (pd' r.thread) r.addr).dirty = (pteOf (pd r.thread) r.addr).dirty) :
    InRam ram B pd' mem r f := by
  intro o ho
  refine ⟨(h o ho).1, fun h1 h2 => (h o ho).2 h1 (hd ▸ h2)⟩

theorem InRam.memOut (h : InRam ram B pd mem r f) (hm : MemOut u a mem mem')
    (hr : r.thread ≠ u ∨ r.addr ≠ a) (ha : pgOfs r.addr = 0) : InRam ram B pd mem' r f := by
  intro o ho
  rw [hm r.thread (r.addr + o) (hr.imp_right fun h => by rwa [pgRoundDown_add ha ho])]
  exact h o ho

theorem Stored.memOut (h : Stored B saved mem p r) (hm : MemOut u a mem mem')
    (hr : r.thread ≠ u ∨ r.addr ≠ a) (ha : pgOfs r.addr = 0) : Stored B saved mem' p r := by
  intro o ho
  rw [hm r.thread (r.addr + o) (hr.imp_right fun h => by rwa [pgRoundDown_add ha ho])]
  exact h o ho

theorem InRam.sameRam (h : InRam ram B pd mem r f) {ram' : FrameId → Nat → Byte} (hr : ram' f = ram f) :
    InRam ram' B pd mem r f := by
  intro o ho
  rw [hr]; exact h o ho

end Data

theorem memOut_putPage (u : Tid) (a : Nat) (mem : Tid → Nat → Byte) (d : Nat → Byte) :
    MemOut u a mem (update mem u (putPage (mem u) a d)) := by
  intro t x h
  by_cases ht : t = u
  · subst ht
    have : pgRoundDown x ≠ a := h.resolve_left (by simp)
    simp [putPage, this]
  · simp [ht]

variable {G : Goals} {t u v : Tid} {w : W} {f : FrameId} {p : PageId} {r : Page}

/-- Two pages of one process have different addresses. -/
theorem addr_ne (hi : Inv G w) (hp : w.st.pages p = some r) {q : PageId} {r0 : Page}
    (hq : w.st.pages q = some r0) (hne : q ≠ p) : r0.thread ≠ r.thread ∨ r0.addr ≠ r.addr := by
  by_contra h
  have ht : r0.thread = r.thread := by by_contra h'; exact h (.inl h')
  have ha : r0.addr = r.addr := by by_contra h'; exact h (.inr h')
  exact hne (hi.table.uniq (ht ▸ hi.table.owned hq) (hi.table.owned hp) hq hp ha)

/-! ## Entries -/

variable {s : St} {pd pd' : Pagedir}

theorem pteLe_setPagedir (hpd : s.pagedirs v = some pd)
    (hle : ∀ a, PteLe (pd.pte a) (pd'.pte a)) (t : Tid) (a : Nat) :
    PteLe (s.pte t a) ((s.setPagedir v (some pd')).pte t a) := by
  by_cases ht : t = v
  · subst ht
    simp only [St.pte, St.setPagedir_pagedirs, update_self, hpd, pteOf_some]
    exact hle a
  · simp only [St.pte, St.setPagedir_pagedirs, update_of_ne ht]
    exact .refl _

theorem pteLe_update {d : Pagedir} {x : Nat} {e : Pte} (h : PteLe (d.pte x) e) (a : Nat) :
    PteLe (d.pte a) (Pagedir.pte { d with pte := update d.pte x e } a) := by
  by_cases ha : a = x
  · subst ha; simpa using h
  · simp only [update_of_ne ha]; exact .refl _

theorem St.pte_of (h : s.pagedirs t = some pd) (a : Nat) :
    s.pte t a = pd.pte a := by
  simp [St.pte, h]

@[simp] theorem St.pte_setPagedir (s : St) (pd : Pagedir) (a : Nat) :
    pteOf ((s.setPagedir t (some pd)).pagedirs t) a = pd.pte a := by
  simp

/-- What clearing bits of an entry means for a page in a locked frame. -/
theorem heldSame_ptesDown (hpd : w.st.pagedirs v = some pd)
    (hle : ∀ a, PteLe (pd.pte a) (pd'.pte a)) (hp : w.st.pages p = some r) :
    HeldSame G f p r w ⟨w.st.setPagedir v (some pd'), w.aux⟩ where
  __ := HeldSame.refl G f hp
  off := fun h => by
    have hl := pteLe_setPagedir hpd hle r.thread r.addr
    refine ⟨?_, hl.dirty, rfl⟩
    by_contra hpr
    simp [hl.present (by simpa using hpr)] at h
  data := fun _ hd h1 h2 => (hd h1 h2).congr (pteLe_setPagedir hpd hle r.thread r.addr).dirty

/-- Entries of `v`'s page directory lose their present bit or change their
accessed bit: an eviction, or a load. -/
theorem step_ptesDown (hi : Inv G w) (hpd : w.st.pagedirs v = some pd)
    (hle : ∀ a, PteLe (pd.pte a) (pd'.pte a)) :
    Step G u none w ⟨w.st.setPagedir v (some pd'), w.aux⟩ := by
  have hle' := pteLe_setPagedir hpd hle
  refine { inv := { hi with fresh := ?_, pte := ⟨?_⟩, data := ?_ },
           keep := fun t ht =>
             { Keep.refl G t w with pte := hle' t, held := fun _ _ _ _ _ hq _ => heldSame_ptesDown hpd hle hq },
           calm := { Calm.refl _ none w with off := ?_ } }
  · intro t ht
    obtain ⟨h1, h2, h3⟩ := hi.fresh t ht
    have : t ≠ v := by rintro rfl; simp [hpd] at h3
    exact ⟨h1, h2, by simpa [this] using h3⟩
  · intro t a ha hpr
    obtain ⟨q, r0, h1, h2, h3, h4, h5, h6⟩ := hi.pte.page ha ((hle' t a).present hpr)
    exact ⟨q, r0, h1, h2, h3, (h4.trans (congrArg some (hle' t a).frame.symm)),
      (hle' t a).writable.trans h5, h6⟩
  · intro hd
    refine ⟨(hi.data hd).out, ?_⟩
    intro t q r0 f' h1 h2 h3 h4 h5 h6
    exact ((hi.data hd).inn h1 h2 h3 h4 h5 (h6.imp_right (hle' t r0.addr).present)).congr
      (hle' r0.thread r0.addr).dirty
  · intro a ha
    by_contra hpr
    simp [(hle' u a).present (by simpa using hpr)] at ha

/-- `pagedir_set_page` for page `p` of process `u`. -/
theorem inv_installPte (hi : Inv G w) (h : Held u f p r w) (ht : r.thread = u)
    (hpd : w.st.pagedirs u = some pd) (hd : G.data → DataAt w p r f)
    (hclean : G.data → r.file.isSome → r.isMmap = true ∨ (w.st.pte r.thread r.addr).dirty = false)
    (tbl : Nat → Bool) :
    Moves G u w ⟨w.st.setPagedir u (some ⟨tbl, update pd.pte r.addr (.user f (!r.readOnly))⟩), w.aux⟩ := by
  subst ht
  have hnew : (w.st.setPagedir r.thread (some ⟨tbl, update pd.pte r.addr
      (.user f (!r.readOnly))⟩)).pte r.thread r.addr = .user f (!r.readOnly) := by
    simp [St.pte]
  have hold : ∀ v a, (v ≠ r.thread ∨ a ≠ r.addr) → (w.st.setPagedir r.thread (some ⟨tbl,
      update pd.pte r.addr (.user f (!r.readOnly))⟩)).pte v a = w.st.pte v a := by
    intro v a hva
    by_cases hv : v = r.thread
    · subst hv
      have : a ≠ r.addr := hva.resolve_left (by simp)
      simp [St.pte, hpd, this]
    · simp [St.pte, hv]
  refine ⟨{ hi with fresh := ?_, pte := ⟨?_⟩, data := ?_ },
    fun t ht => { Keep.refl G t w with pte := ?_, held := ?_ }⟩
  · intro v hv
    obtain ⟨h1, h2, h3⟩ := hi.fresh v hv
    have : v ≠ r.thread := by rintro rfl; simp [hpd] at h3
    exact ⟨h1, h2, by simpa [this] using h3⟩
  · intro v a ha hpr
    by_cases hva : v = r.thread ∧ a = r.addr
    · obtain ⟨rfl, rfl⟩ := hva
      refine ⟨p, r, hi.table.owned h.page, h.page, rfl, ?_, ?_, h.kept⟩
      · exact h.back.trans (congrArg (fun e => some (Pte.frame e)) hnew.symm)
      · exact congrArg Pte.writable hnew
    · have := hold v a (by simpa only [not_and_or] using hva)
      simp only [St.pte] at this
      rw [this] at hpr ⊢
      exact hi.pte.page ha hpr
  · intro hg
    refine ⟨(hi.data hg).out, ?_⟩
    intro v q r0 f' h1 h2 h3 h4 h5 h6
    have hv := thread_of_mem hi h2 h1
    by_cases hqp : q = p
    · subst hqp
      obtain rfl := Option.mem_unique h.page h2
      obtain rfl := Option.mem_unique h.back h4
      intro o ho
      have hin := hd hg (hi.table.owned h.page) h3 o ho
      refine ⟨hin.1, fun hfile _ => hin.2 hfile ?_⟩
      exact (hclean hg hfile).resolve_left (by simp [h3])
    · have hne := hold r0.thread r0.addr (addr_ne hi h.page h2 hqp)
      subst hv
      refine ((hi.data hg).inn h1 h2 h3 h4 h5 ?_).congr (congrArg Pte.dirty hne)
      exact h6.imp_right fun h' => by simpa only [St.pte, hne] using h'
  · intro a
    rw [hold t a (.inl ht)]; exact .refl _
  · intro f' q r0 hl hf hq hb
    have hne := hold r0.thread r0.addr (addr_ne hi h.page hq (h.ne ht hl hq hb))
    exact { HeldSame.refl G f' hq with
      off := fun h' => by rw [hne]; exact ⟨h', rfl, rfl⟩
      data := fun _ hd h1 h2 => (hd h1 h2).congr (congrArg Pte.dirty hne) }

/-! ## Memory -/

/-- Another frame that is in use is not the locked frame `f`. -/
theorem Held.frame_ne (h : Held u f p r w) {f' : FrameId} {q : PageId} (hf : w.st.frames f' = some q)
    (hqp : q ≠ p) : f' ≠ f := by
  rintro rfl
  exact hqp (Option.mem_unique hf h.frame)

/-- What a process can see is in no locked page that is not mapped. -/
theorem Held.ne_seen (hi : Inv G w) (h : Held u f p r w) (hoff : Off r w) {q : PageId} {r0 : Page} {f' : FrameId}
    (h1 : q ∈ w.st.table v) (h2 : w.st.pages q = some r0) (h4 : r0.frame = some f')
    (h6 : w.st.holder f' = none ∨ (w.st.pte v r0.addr).present = true) : q ≠ p := by
  rintro rfl
  obtain rfl := Option.mem_unique h.page h2
  obtain rfl := Option.mem_unique h.back h4
  obtain rfl := thread_of_mem hi h2 h1
  rcases h6 with h6 | h6
  · cases h6.symm.trans h.lock
  · cases hoff.symm.trans h6

/-- The kernel writes to a locked frame whose page is not mapped. -/
theorem step_setRam (hi : Inv G w) (h : Held u f p r w) (hoff : Off r w) (m : Nat → Byte) :
    Step G u none w ⟨w.st.setRam f m, w.aux⟩ where
  inv := { hi with
    data := fun hd => { hi.data hd with
      inn := by
        intro v q r0 f' h1 h2 h3 h4 h5 h6
        have hne := h.frame_ne (hi.frame.back h2 h4 h5) (h.ne_seen hi hoff h1 h2 h4 h6)
        exact ((hi.data hd).inn h1 h2 h3 h4 h5 h6).sameRam (by simp [hne]) } }
  keep t ht := { Keep.refl G t w with
    held := by
      intro f' q r0 hl hf hq hb
      have hne := h.frame_ne hf (h.ne ht hl hq hb)
      exact { HeldSame.refl G f' hq with
        off := fun h' => ⟨h', rfl, by simp [hne]⟩
        data := fun _ hd h1 h2 => (hd h1 h2).sameRam (by simp [hne]) } }
  calm := { Calm.refl u none w with }

/-- `init_cmd_line`: the memory of the stack page is what it wrote. -/
theorem step_writeStack (hi : Inv G w) (h : Held u f p r w) (ht : r.thread = u) (hoff : Off r w)
    (m : Nat → Byte) :
    Step G u none w ⟨w.st.setRam f m,
      { w.aux with mem := update w.aux.mem u (putPage (w.aux.mem u) r.addr m) }⟩ := by
  subst ht
  have hm := memOut_putPage r.thread r.addr w.aux.mem m
  have hs := step_setRam hi h hoff m
  refine { inv := { hs.inv with data := ?_ },
           keep := fun t ht => { Keep.refl G t w with mem := by simp [ht], held := ?_ },
           calm := { Calm.refl r.thread none w with } }
  · intro hd
    refine ⟨?_, ?_⟩
    · intro v q r0 h1 h2 h3 h4
      have hqp : q ≠ p := by
        rintro rfl
        obtain rfl := Option.mem_unique h.page h2
        simp [h.back] at h4
      exact ((hi.data hd).out h1 h2 h3 h4).memOut hm (addr_ne hi h.page h2 hqp) (hi.table.aligned h2)
    · intro v q r0 f' h1 h2 h3 h4 h5 h6
      exact ((hs.inv.data hd).inn h1 h2 h3 h4 h5 h6).memOut hm
        (addr_ne hi h.page h2 (h.ne_seen hi hoff h1 h2 h4 h6)) (hi.table.aligned h2)
  · intro f' q r0 hl hf hq hb
    have hsame := (hs.keep t ht).held f' q r0 hl hf hq hb
    exact { HeldSame.refl G f' hq with
      off := hsame.off
      data := fun hg hd h1 h2 => (hsame.data hg hd h1 h2).memOut hm
        (addr_ne hi h.page hq (h.ne ht hl hq hb)) (hi.table.aligned hq) }

theorem setPte_eq (h : s.pagedirs u = some pd) (a : Nat) (e : Pte) :
    setPte s u a e = s.setPagedir u (some { pd with pte := update pd.pte a e }) := by
  simp only [setPte, h]

/-- A store of process `u` through a present and writable entry. -/
theorem step_store (hi : Inv G w) (ha : (w.st.procs u).status.alive) {x : Nat} {b : Byte} {e : Pte}
    (he : w.st.pte u (pgRoundDown x) = e) (hpr : e.present = true)
    (hpd : w.st.pagedirs u = some pd) :
    Step G u none w ⟨(w.st.setRam e.frame (update (w.st.ram e.frame) (pgOfs x) b)).setPagedir u
        (some ⟨pd.table,
          update pd.pte (pgRoundDown x) { e with accessed := true, dirty := true }⟩),
      { w.aux with mem := update w.aux.mem u (update (w.aux.mem u) x b) }⟩ := by
  obtain ⟨p, r, hin, hp, hra, hrf, hrw, hgu⟩ := hi.pte.page ha (he.symm ▸ hpr)
  obtain rfl := thread_of_mem hi hp hin
  generalize hx : pgRoundDown x = a at *
  subst hra
  simp only [St.pte] at he
  rw [he] at hrf hrw
  have hfp : w.st.frames e.frame = some p := hi.frame.back hp hrf hgu
  have hxa : r.addr + pgOfs x = x := hx ▸ pgRoundDown_add_pgOfs x
  have hmo : MemOut r.thread r.addr w.aux.mem
      (update w.aux.mem r.thread (update (w.aux.mem r.thread) x b)) := by
    intro v y hv
    by_cases hvt : v = r.thread
    · subst hvt
      have : y ≠ x := by rintro rfl; exact hv.resolve_left (by simp) hx
      simp [this]
    · simp [hvt]
  set pd' : Pagedir :=
    ⟨pd.table, update pd.pte r.addr { e with accessed := true, dirty := true }⟩ with hpd'
  -- the entry of the page that is stored to, and all other entries
  have hnew : pteOf (update w.st.pagedirs r.thread (some pd') r.thread) r.addr =
      { e with accessed := true, dirty := true } := by simp [hpd']
  have hold : ∀ v y, (v ≠ r.thread ∨ y ≠ r.addr) →
      pteOf (update w.st.pagedirs r.thread (some pd') v) y = w.st.pte v y := by
    intro v y hvy
    by_cases hv : v = r.thread
    · subst hv
      have : y ≠ r.addr := hvy.resolve_left (by simp)
      simp [St.pte, hpd, this, hpd']
    · simp [St.pte, hv]
  -- the stored byte reaches the frame and the specified memory alike
  have hsync : ∀ {pdx : Tid → Option Pagedir},
      InRam w.st.ram w.st.backing w.st.pagedirs w.aux.mem r e.frame →
      (pteOf (pdx r.thread) r.addr).dirty = true →
      InRam (update w.st.ram e.frame (update (w.st.ram e.frame) (pgOfs x) b))
        w.st.backing pdx
        (update w.aux.mem r.thread (update (w.aux.mem r.thread) x b)) r e.frame := by
    intro pdx hi' hdirty o ho
    refine ⟨?_, fun _ h => by simp [hdirty] at h⟩
    by_cases hox : o = pgOfs x
    · subst hox; simp [hxa]
    · have : r.addr + o ≠ x := by omega
      simpa [hox, this] using (hi' o ho).1
  -- pages other than `p` keep their frame, their entry and their memory
  have hother : ∀ {q r0 f'}, w.st.pages q = some r0 → q ≠ p → w.st.frames f' = some q →
      InRam w.st.ram w.st.backing w.st.pagedirs w.aux.mem r0 f' →
      InRam (update w.st.ram e.frame (update (w.st.ram e.frame) (pgOfs x) b))
        w.st.backing (update w.st.pagedirs r.thread (some pd'))
        (update w.aux.mem r.thread (update (w.aux.mem r.thread) x b)) r0 f' := by
    intro q r0 f' hq hqp hf hin'
    have hne : f' ≠ e.frame := by rintro rfl; exact hqp (Option.mem_unique hf hfp)
    have had := addr_ne hi hp hq hqp
    exact ((hin'.memOut hmo had (hi.table.aligned hq)).sameRam (by simp [hne])).congr
      (congrArg Pte.dirty (hold _ _ had))
  have hpres : ∀ v y, (pteOf (update w.st.pagedirs r.thread (some pd') v) y).present =
      (w.st.pte v y).present := by
    intro v y
    by_cases hvy : v = r.thread ∧ y = r.addr
    · obtain ⟨rfl, rfl⟩ := hvy
      rw [hnew, St.pte, he]
    · rw [hold v y (by simpa only [not_and_or] using hvy)]
  refine { inv := { hi with fresh := ?_, pte := ⟨?_⟩, data := ?_ },
           keep := fun t ht => { Keep.refl G t w with mem := by simp [ht], pte := ?_, held := ?_ },
           calm := { Calm.refl _ none w with off := fun y hy => (hpres _ y).trans hy } }
  · intro v hv
    obtain ⟨h1, h2, h3⟩ := hi.fresh v hv
    have : v ≠ r.thread := by rintro rfl; simp [hpd] at h3
    exact ⟨h1, h2, by simpa [this] using h3⟩
  · intro v y hv hpy
    by_cases hvy : v = r.thread ∧ y = r.addr
    · obtain ⟨rfl, rfl⟩ := hvy
      refine ⟨p, r, hin, hp, rfl, ?_, ?_, hgu⟩
      · exact hrf.trans (congrArg some (congrArg Pte.frame hnew).symm)
      · exact (congrArg Pte.writable hnew).trans hrw
    · have := hold v y (by simpa only [not_and_or] using hvy)
      have hpy' : (w.st.pte v y).present = true := (hpres v y).symm.trans hpy
      obtain ⟨q, r0, h1, h2, h3, h4, h5, h6⟩ := hi.pte.page hv hpy'
      exact ⟨q, r0, h1, h2, h3, h4.trans (congrArg (fun e => some (Pte.frame e)) this.symm),
        (congrArg Pte.writable this).trans h5, h6⟩
  · intro hd
    refine ⟨?_, ?_⟩
    · intro v q r0 h1 h2 h3 h4
      have hqp : q ≠ p := by
        rintro rfl
        obtain rfl := Option.mem_unique hp h2
        simp [hrf] at h4
      exact ((hi.data hd).out h1 h2 h3 h4).memOut hmo (addr_ne hi hp h2 hqp) (hi.table.aligned h2)
    · intro v q r0 f' h1 h2 h3 h4 h5 h6
      have hin' := (hi.data hd).inn h1 h2 h3 h4 h5 (h6.imp_right fun h => (hpres _ _).symm.trans h)
      by_cases hqp : q = p
      · subst hqp
        obtain rfl := Option.mem_unique hp h2
        obtain rfl := Option.mem_unique hrf h4
        exact hsync hin' (by rw [St.setPagedir_pagedirs]; exact congrArg Pte.dirty hnew)
      · exact hother h2 hqp (hi.frame.back h2 h4 h5) hin'
  · intro y
    have := hold t y (.inl ht)
    simp only [St.pte, St.setPagedir_pagedirs, St.setRam_pagedirs] at this ⊢
    rw [this]; exact .refl _
  · intro f' q r0 hl hf hq hb
    by_cases hqp : q = p
    · subst hqp
      obtain rfl := Option.mem_unique hp hq
      obtain rfl := Option.mem_unique hrf hb
      exact { HeldSame.refl G e.frame hq with
        off := fun h => by rw [St.pte, he, hpr] at h; cases h
        data := fun _ hd h1 h2 => hsync (hd h1 h2) (by
          rw [St.setPagedir_pagedirs]; exact congrArg Pte.dirty hnew) }
    · have hne : f' ≠ e.frame := by rintro rfl; exact hqp (Option.mem_unique hf hfp)
      have had := hold _ _ (addr_ne hi hp hq hqp)
      exact { HeldSame.refl G f' hq with
        off := fun h => by
          simp only [St.pte, St.setPagedir_pagedirs, St.setRam_pagedirs] at had ⊢
          rw [had]; exact ⟨h, rfl, by simp [hne]⟩
        data := fun _ hd h1 h2 => hother hq hqp hf (hd h1 h2) }

end Pintos.Vm
