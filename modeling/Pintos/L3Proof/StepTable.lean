import Pintos.L3Proof.StepMem

/-!
# Steps of one process: its table of pages

A page enters the table when it is allocated, is given its file while it has
no frame, and leaves the table when it is freed.
-/
namespace Pintos.Vm

open Pintos.Core Function

variable {G : Goals} {t u : Tid} {w : W} {f : FrameId} {p : PageId} {r : Page}

variable {es : List PageId} {q : PageId}

theorem findAddr_none {s : St} {a : Nat} (h : s.findAddr es a = none)
    (hq : q ∈ es) {r0 : Page} (hr : s.pages q = some r0) : r0.addr ≠ a := by
  simp only [St.findAddr, List.find?_eq_none] at h
  simpa [hr] using h q hq

theorem findAddr_some {s : St} {a : Nat}
    (h : s.findAddr es a = some q) : q ∈ es ∧ ∃ r0, s.pages q = some r0 ∧ r0.addr = a := by
  simp only [St.findAddr] at h
  refine ⟨List.mem_of_find?_eq_some h, ?_⟩
  have := List.find?_some h
  simp only [Option.any_eq_true, beq_iff_eq] at this
  exact this

/-- With one page per address, `hash_find` finds the page. -/
theorem findAddr_eq (hi : Inv G w) {b : Bool} (hT : w.st.tables u = some ⟨b, es⟩)
    (hp : w.st.pages p = some r) (hin : p ∈ es) : w.st.findAddr es r.addr = some p := by
  cases hfind : w.st.findAddr es r.addr with
  | none => exact absurd rfl (findAddr_none hfind hin hp)
  | some q =>
    obtain ⟨hq, r0, hr0, ha⟩ := findAddr_some hfind
    have hmem : ∀ {x}, x ∈ es → x ∈ elemsOf (w.st.tables u) := fun h => by simpa [hT, elemsOf] using h
    rw [hi.table.uniq (hmem hq) (hmem hin) hr0 hp ha]

/-- A page outside all locked and free frames' reach: its owner may free it. -/
theorem not_held (hi : Inv G w) (hp : w.st.pages p = some r)
    (hfree : r.frame = none ∨ w.aux.givenUp p = true) {f' : FrameId} {r0 : Page}
    (hf : w.st.frames f' = some q) (hq : w.st.pages q = some r0) (hb : r0.frame = some f') : q ≠ p := by
  rintro rfl
  obtain rfl := Option.mem_unique hp hq
  rcases hfree with h | h
  · simp [h] at hb
  · exact hi.frame.gone hp hb h hf

/-! ## Pages that come and go -/

/-- Page `p` is gone, or it is there and has neither a frame nor a slot nor a
file; the other pages, and the tables as far as they have these, are as they
were. -/
structure Beside (p : PageId) (P P' : PageId → Option Page) (T T' : Tid → Option PageTable) : Prop where
  page : ∀ q, q ≠ p → P' q = P q
  table : ∀ t q, q ≠ p → (q ∈ elemsOf (T' t) ↔ q ∈ elemsOf (T t))
  bare : ∀ r, P' p = some r → r.frame = none ∧ r.sector = none ∧ r.file = none

section Beside
variable {P P' : PageId → Option Page} {T T' : Tid → Option PageTable} {gu gu' : PageId → Bool} {Pr : Tid → Proc}
  (hA : Beside p P P' T T')
include hA

theorem Beside.old (hq : P' q = some r) (hr : r.frame ≠ none ∨ r.sector ≠ none ∨ r.file ≠ none) :
    q ≠ p ∧ P q = some r := by
  have hqp : q ≠ p := by
    rintro rfl
    obtain ⟨h1, h2, h3⟩ := hA.bare r hq
    simp [h1, h2, h3] at hr
  exact ⟨hqp, (hA.page q hqp).symm.trans hq⟩

theorem Beside.new (hq : P q = some r) (hqp : q ≠ p) : P' q = some r := (hA.page q hqp).trans hq

theorem FrameInv.apart {F : FrameId → Option PageId} {L : FrameId → Option Tid} (h : FrameInv F L P gu)
    (hgu : ∀ q, q ≠ p → gu' q = gu q) (hn : ∀ f, L f = none → F f ≠ some p) : FrameInv F L P' gu' := by
  have hold : ∀ {q r f}, P' q = some r → r.frame = some f → P q = some r ∧ gu' q = gu q := fun {q r f} hq hf => by
    obtain ⟨hqp, hq⟩ := hA.old hq (.inl (by simp [hf]))
    exact ⟨hq, hgu q hqp⟩
  constructor
  case free =>
    intro f q hl hf
    have hqp : q ≠ p := fun h => hn f hl (h ▸ hf)
    rw [hA.page q hqp, hgu q hqp]
    exact h.free hl hf
  case back =>
    intro q r0 f hq hf hg
    obtain ⟨hq, heq⟩ := hold hq hf
    exact h.back hq hf (heq ▸ hg)
  case gone =>
    intro q r0 f hq hf hg
    obtain ⟨hq, heq⟩ := hold hq hf
    exact h.gone hq hf (heq ▸ hg)

theorem PteInv.apart {pd : Tid → Option Pagedir} (h : PteInv Pr pd T P gu) (hgu : ∀ q, q ≠ p → gu' q = gu q)
    (hn : ∀ {t r}, p ∈ elemsOf (T t) → P p = some r → (Pr t).status.alive →
      (pteOf (pd t) r.addr).present = false) : PteInv Pr pd T' P' gu' where
  page := by
    intro t a ha hpr
    obtain ⟨q, r0, h1, h2, rfl, h4, h5, h6⟩ := h.page ha hpr
    have hqp : q ≠ p := by
      rintro rfl
      simp [hn h1 h2 ha] at hpr
    exact ⟨q, r0, (hA.table t q hqp).mpr h1, hA.new h2 hqp, rfl, h4, h5, (hgu q hqp).trans h6⟩

theorem MapInv.apart (h : MapInv Pr T P)
    (hn : ∀ {t r}, p ∈ elemsOf (T t) → P p = some r → r.addr ∉ (Pr t).covered) : MapInv Pr T' P' where
  live := h.live
  nodup := h.nodup
  page := by
    intro t a ha
    obtain ⟨q, r0, h1, h2, rfl, h4⟩ := h.page ha
    have hqp : q ≠ p := by
      rintro rfl
      exact hn h1 h2 ha
    exact ⟨q, r0, (hA.table t q hqp).mpr h1, hA.new h2 hqp, rfl, h4⟩

theorem FileInv.apart {files : FileId → Option File} {inodes : InodeId → Inode} (h : FileInv files inodes Pr P) :
    FileInv files inodes Pr P' := { h with
  mmap := by
    intro q r0 hq hm
    refine h.mmap (hA.old hq (.inr (.inr fun hf => ?_))).2 hm
    simp [Page.isMmap, hf] at hm
  seg := fun hq hm hg => h.seg (hA.old hq (.inr (.inr (by simp [hg])))).2 hm hg }

theorem LeakInv.apart {used : Nat → Bool} {claim : Nat → Option Tid} {released released' : PageId → Bool}
    (h : LeakInv P used claim released) (hrel : ∀ q, q ≠ p → released' q = released q)
    (hn : ∀ r, P p = some r → r.sector = none) : LeakInv P' used claim released' := by
  intro k hk
  refine (h k hk).imp_right fun ⟨q, r0, h1, h2, h3⟩ => ?_
  have hqp : q ≠ p := by
    rintro rfl
    simp [hn r0 h1] at h2
  exact ⟨q, r0, hA.new h1 hqp, h2, (hrel q hqp).trans h3⟩

end Beside

/-! ## Allocation -/

section Alloc
variable {vaddr : Nat} {ro : Bool} {es : List PageId}

/-- The state after `page_allocate` has entered page `p`. -/
abbrev St.allocated (s : St) (u : Tid) (p : PageId) (vaddr : Nat) (ro : Bool) (es : List PageId) : St :=
  (s.setPage p (some (.fresh u vaddr ro))).setTable u (some ⟨true, p :: es⟩)

abbrev Aux.allocated (a : Aux) (u : Tid) (p : PageId) (vaddr : Nat) : Aux :=
  { a with
    mem := update a.mem u (putPage (a.mem u) (pgRoundDown vaddr) fun _ => 0)
    givenUp := update a.givenUp p false
    released := update a.released p false
    swapping := update a.swapping p false }

theorem step_alloc (hi : Inv G w) (hT : w.st.tables u = some ⟨true, es⟩) (hp : w.st.pages p = none)
    (ha : w.st.findAddr es (pgRoundDown vaddr) = none)
    (hr : G.range → pgSize ≤ pgRoundDown vaddr ∧ pgRoundDown vaddr < physBase) :
    Moves G u w ⟨w.st.allocated u p vaddr ro es, w.aux.allocated u p vaddr⟩ := by
  have hmo := memOut_putPage u (pgRoundDown vaddr) w.aux.mem fun _ => 0
  have hne : ∀ {q r0}, w.st.pages q = some r0 → q ≠ p := by rintro q r0 hq rfl; simp [hp] at hq
  have hmem : ∀ {q}, q ∈ elemsOf (w.st.tables u) ↔ q ∈ es := by simp [hT, elemsOf]
  have hA : Beside p w.st.pages (w.st.allocated u p vaddr ro es).pages w.st.tables
      (w.st.allocated u p vaddr ro es).tables := by
    refine ⟨fun q hqp => by simp [hqp], fun v q hqp => ?_, fun r0 hr0 => ?_⟩
    · by_cases hv : v = u
      · subst hv
        rw [hmem]
        simp [elemsOf, hqp]
      · simp [hv]
    · obtain rfl : _ = r0 := by simpa using hr0
      exact ⟨rfl, rfl, rfl⟩
  have hold : ∀ {q r0}, w.st.pages q = some r0 →
      (w.st.allocated u p vaddr ro es).pages q = some r0 := fun hq => hA.new hq (hne hq)
  have hcase : ∀ {q r0}, (w.st.allocated u p vaddr ro es).pages q = some r0 →
      (q = p ∧ .fresh u vaddr ro = r0) ∨ (q ≠ p ∧ w.st.pages q = some r0) := update_some_iff.mp
  have htab : ∀ {v q}, q ∈ elemsOf (w.st.tables v) →
      q ∈ elemsOf ((w.st.allocated u p vaddr ro es).tables v) := fun {v q} hq => by
    obtain ⟨r0, h1, -⟩ := hi.table.page hq
    exact (hA.table v q (hne h1)).mpr hq
  have htabp : ∀ {v}, p ∈ elemsOf ((w.st.allocated u p vaddr ro es).tables v) → v = u := by
    intro v hv
    by_contra hvu
    have : p ∈ elemsOf (w.st.tables v) := by simpa [hvu] using hv
    obtain ⟨r0, h1, -⟩ := hi.table.page this
    exact hne h1 rfl
  have haddr : ∀ {q r0}, w.st.pages q = some r0 → r0.thread ≠ u ∨ r0.addr ≠ pgRoundDown vaddr := by
    intro q r0 hq
    by_cases hv : r0.thread = u
    · exact .inr (findAddr_none ha (hmem.1 (hv ▸ hi.table.owned hq)) hq)
    · exact .inl hv
  have hupd : ∀ (b : PageId → Bool) q, q ≠ p → update b p false q = b q := fun b q hqp => by simp [hqp]
  constructor
  · constructor
    case frame =>
      refine hi.frame.apart hA (hupd _) fun f' hl hf => ?_
      obtain ⟨r0, h1, -⟩ := hi.frame.free hl hf
      exact hne h1 rfl
    case table =>
      constructor
      case page =>
        intro v q hq
        by_cases hqp : q = p
        · subst hqp
          exact ⟨.fresh u vaddr ro, by simp, (htabp hq).symm⟩
        · obtain ⟨r0, h1, h2⟩ := hi.table.page ((hA.table v q hqp).mp hq)
          exact ⟨r0, hold h1, h2⟩
      case nodup =>
        intro v
        by_cases hv : v = u
        · subst hv
          have hnd : es.Nodup := by simpa [hT, elemsOf] using hi.table.nodup v
          have hpe : p ∉ es := by
            intro hpe
            obtain ⟨r0, h1, -⟩ := hi.table.page (hmem.2 hpe)
            exact hne h1 rfl
          simp [elemsOf, hnd, hpe]
        · simpa [hv] using hi.table.nodup v
      case uniq =>
        -- an old page of `u` does not have the address of the new one
        have hother : ∀ {v q r0}, w.st.pages q = some r0 →
            p ∈ elemsOf ((w.st.allocated u p vaddr ro es).tables v) →
            q ∈ elemsOf ((w.st.allocated u p vaddr ro es).tables v) → r0.addr ≠ pgRoundDown vaddr := by
          intro v q r0 h0 hpv hq
          obtain rfl := htabp hpv
          exact (haddr h0).resolve_left (by simp [thread_of_mem hi h0 ((hA.table v q (hne h0)).mp hq)])
        intro v q q' r0 r1 hq hq' h0 h1 he
        rcases hcase h0 with ⟨rfl, rfl⟩ | ⟨hqp, h0'⟩ <;> rcases hcase h1 with ⟨rfl, rfl⟩ | ⟨hqp', h1'⟩
        · rfl
        · exact (hother h1' hq hq' he.symm).elim
        · exact (hother h0' hq' hq he).elim
        · exact hi.table.uniq ((hA.table v q hqp).mp hq) ((hA.table v q' hqp').mp hq') h0' h1' he
      case aligned =>
        intro q r0 hq
        rcases hcase hq with ⟨rfl, rfl⟩ | ⟨-, hq'⟩
        · exact pgOfs_pgRoundDown vaddr
        · exact hi.table.aligned hq'
      case owned =>
        intro q r0 hq
        rcases hcase hq with ⟨rfl, rfl⟩ | ⟨-, hq'⟩
        · simp [Page.fresh, elemsOf]
        · exact htab (hi.table.owned hq')
    case fresh =>
      intro v hv
      obtain ⟨h1, h2, h3⟩ := hi.fresh v hv
      have : v ≠ u := by rintro rfl; simp [hT] at h2
      exact ⟨h1, by simpa [this] using h2, h3⟩
    case pte => exact hi.pte.apart hA (hupd _) fun _ h2 => absurd rfl (hne h2)
    case map => exact hi.map.apart hA fun _ h2 => absurd rfl (hne h2)
    case swap =>
      refine hi.swap.apart (fun hq hx => hA.old hq (.inr (.inl (by simp [hx])))) (fun {q r0} hq hb => ?_) (hupd _)
        (hupd _) (hupd _)
      have hqp : q ≠ p := by rintro rfl; simp at hb
      exact ⟨hqp, (hA.page q hqp).symm.trans hq⟩
    case file => exact hi.file.apart hA
    case leak => exact fun hL => (hi.leak hL).apart hA (hupd _) fun _ h1 => absurd rfl (hne h1)
    case data =>
      intro hd
      constructor
      case out =>
        intro v q r0 h1 h2 h3 h4
        rcases hcase h2 with ⟨rfl, rfl⟩ | ⟨hqp, h2'⟩
        · intro o ho
          simp [Page.fresh, St.backing, putPage, pgRoundDown_add (pgOfs_pgRoundDown vaddr) ho]
        · exact ((hi.data hd).out ((hA.table v q hqp).mp h1) h2' h3 h4).memOut hmo (haddr h2') (hi.table.aligned h2')
      case inn =>
        intro v q r0 f' h1 h2 h3 h4 h5 h6
        obtain ⟨hqp, h2'⟩ := hA.old h2 (.inl (by simp [h4]))
        exact ((hi.data hd).inn ((hA.table v q hqp).mp h1) h2' h3 h4 (by simpa [hqp] using h5) h6).memOut hmo
          (haddr h2') (hi.table.aligned h2')
    case range =>
      intro hg
      constructor
      case range =>
        intro v q r0 h1 h2
        rcases hcase h2 with ⟨rfl, rfl⟩ | ⟨hqp, h2'⟩
        · exact hr hg
        · exact (hi.range hg).range ((hA.table v q hqp).mp h1) h2'
      case stack =>
        intro v hv
        obtain ⟨q, r0, h1, h2, h3, h4⟩ := (hi.range hg).stack hv
        exact ⟨q, r0, htab h1, hold h2, h3, h4⟩
  · intro t ht
    exact { Keep.refl G t w with
      away := fun f' q _ h r0 hq hf => h r0 (hA.old hq (.inl (by simp [hf]))).2 hf
      table := by simp [ht]
      mem := by simp [ht]
      own := by
        intro q r0 hq _
        exact ⟨⟨r0, hold hq, .refl r0⟩, by simp [hne hq]⟩
      held := by
        intro f' q r0 hl hf hq hb
        have hqp := hne hq
        exact { HeldSame.refl G f' hq with
          page := hold hq
          givenUp := by simp [hqp]
          released := by simp [hqp]
          swapping := by simp [hqp]
          table := (hA.table _ q hqp).mp
          data := fun _ hd h1 h2 =>
            (hd ((hA.table _ q hqp).mp h1) h2).memOut hmo (haddr hq) (hi.table.aligned hq) } }

end Alloc

/-! ## Freeing -/

/-- A page that has no frame, or has handed it back, is freed by its owner. -/
theorem step_free (hi : Inv G w) (hT : w.st.tables u = some ⟨true, es⟩)
    (hp : w.st.pages p = some r) (ht : r.thread = u)
    (hfree : r.frame = none ∨ w.aux.givenUp p = true)
    (hoff : (w.st.procs u).status.alive → Off r w) (hcov : r.addr ∉ (w.st.procs u).covered)
    (hrun : (w.st.procs u).status = .running → r.isMmap = true) (hleak : G.leak → r.sector = none) :
    Moves G u w ⟨(w.st.setPage p none).setTable u (some ⟨true, es.erase p⟩), w.aux⟩ := by
  have hmem : ∀ {q}, q ∈ elemsOf (w.st.tables u) ↔ q ∈ es := by simp [hT, elemsOf]
  have hnd : es.Nodup := by simpa [hT, elemsOf] using hi.table.nodup u
  set s' := (w.st.setPage p none).setTable u (some ⟨true, es.erase p⟩) with hs'
  have hA : Beside p w.st.pages s'.pages w.st.tables s'.tables := by
    refine ⟨fun q hqp => by simp [hs', hqp], fun v q hqp => ?_, fun r0 hr0 => by simp [hs'] at hr0⟩
    by_cases hv : v = u
    · subst hv
      rw [hmem]
      simp [hs', elemsOf, List.mem_erase_of_ne hqp]
    · simp [hs', hv]
  have hcase : ∀ {q r0}, s'.pages q = some r0 → q ≠ p ∧ w.st.pages q = some r0 := update_none_iff.mp
  have hpage : ∀ {v r0}, p ∈ elemsOf (w.st.tables v) → w.st.pages p = some r0 → v = u ∧ r0 = r := by
    intro v r0 h1 h2
    obtain rfl := Option.mem_unique hp h2
    exact ⟨(thread_of_mem hi h2 h1).symm.trans ht, rfl⟩
  have htabo : ∀ {v q}, q ∈ elemsOf (s'.tables v) → q ∈ elemsOf (w.st.tables v) ∧ q ≠ p := by
    intro v q hq
    have hqp : q ≠ p := by
      rintro rfl
      by_cases hv : v = u
      · subst hv
        have : q ∈ es.erase q := by simpa [hs', elemsOf] using hq
        exact hnd.not_mem_erase this
      · exact hv (hpage (by simpa [hs', hv] using hq) hp).1
    exact ⟨(hA.table v q hqp).mp hq, hqp⟩
  constructor
  · constructor
    case frame =>
      refine hi.frame.apart hA (fun _ _ => rfl) fun f' hl hf => ?_
      obtain ⟨r0, h1, h2, -⟩ := hi.frame.free hl hf
      exact not_held hi hp hfree hf h1 h2 rfl
    case table =>
      constructor
      case page =>
        intro v q hq
        obtain ⟨h1, h2⟩ := htabo hq
        obtain ⟨r0, h3, h4⟩ := hi.table.page h1
        exact ⟨r0, hA.new h3 h2, h4⟩
      case nodup =>
        intro v
        by_cases hv : v = u
        · subst hv; simpa [hs', elemsOf] using hnd.erase p
        · simpa [hs', hv] using hi.table.nodup v
      case uniq =>
        exact fun h1 h2 h3 h4 => hi.table.uniq (htabo h1).1 (htabo h2).1 (hcase h3).2 (hcase h4).2
      case aligned => exact fun hq => hi.table.aligned (hcase hq).2
      case owned => exact fun hq => (hA.table _ _ (hcase hq).1).mpr (hi.table.owned (hcase hq).2)
    case fresh =>
      intro v hv
      obtain ⟨h1, h2, h3⟩ := hi.fresh v hv
      have : v ≠ u := by rintro rfl; simp [hT] at h2
      exact ⟨h1, by simpa [hs', this] using h2, h3⟩
    case pte =>
      refine hi.pte.apart hA (fun _ _ => rfl) fun h1 h2 hv => ?_
      obtain ⟨rfl, rfl⟩ := hpage h1 h2
      rw [← ht] at hv hoff ⊢
      exact hoff hv
    case map =>
      refine hi.map.apart hA fun h1 h2 => ?_
      obtain ⟨rfl, rfl⟩ := hpage h1 h2
      exact hcov
    case swap =>
      exact hi.swap.apart (fun hq _ => hcase hq) (fun hq _ => hcase hq) (fun _ _ => rfl) (fun _ _ => rfl) fun _ _ => rfl
    case file => exact hi.file.apart hA
    case leak =>
      refine fun hL => (hi.leak hL).apart hA (fun _ _ => rfl) fun r0 h1 => ?_
      obtain rfl := Option.mem_unique hp h1
      exact hleak hL
    case data =>
      intro hd
      exact {
        out := fun h1 h2 => (hi.data hd).out (htabo h1).1 (hcase h2).2
        inn := fun h1 h2 => (hi.data hd).inn (htabo h1).1 (hcase h2).2 }
    case range =>
      intro hg
      refine ⟨fun h1 h2 => (hi.range hg).range (htabo h1).1 (hcase h2).2, ?_⟩
      intro v hv
      obtain ⟨q, r0, h1, h2, h3, h4⟩ := (hi.range hg).stack hv
      have hqp : q ≠ p := by
        rintro rfl
        obtain ⟨rfl, rfl⟩ := hpage h1 h2
        simp [hrun hv] at h4
      exact ⟨q, r0, (hA.table v q hqp).mpr h1, hA.new h2 hqp, h3, h4⟩
  · intro t htu
    exact { Keep.refl G t w with
      away := fun f' q _ h r0 hq => h r0 (hcase hq).2
      table := by simp [hs', htu]
      own := by
        intro q r0 hq hq'
        have hqp : q ≠ p := by
          rintro rfl
          obtain rfl := Option.mem_unique hp hq
          exact htu (hq'.symm.trans ht)
        exact ⟨⟨r0, hA.new hq hqp, .refl r0⟩, rfl⟩
      held := by
        intro f' q r0 hl hf hq hb
        have hqp := not_held hi hp hfree hf hq hb
        exact { HeldSame.refl G f' hq with
          page := hA.new hq hqp
          table := fun h => (htabo h).1
          data := fun _ hd h1 h2 => hd (htabo h1).1 h2 } }

/-! ## The file of a page -/

/-- A page without a frame is given its file; its specified memory becomes
what the file defines. -/
theorem step_setFile (hi : Inv G w) (hp : w.st.pages p = some r) (ht : r.thread = u)
    (hf : r.frame = none) (hg : w.aux.givenUp p = false) (hsec : r.sector = none)
    (hm : r.isMmap = false) {g : FileId} {pr : Bool} {ofs n : Nat} {r' : Page}
    (hr' : r' = { r with priv := pr, file := some g, fileOffset := ofs, fileBytes := n })
    (hmm : r'.isMmap = true → Kept w.st.files w.st.procs g)
    (hseg : r'.isMmap = false → (w.st.procs u).binFile = some g ∧
      ∃ F, w.st.files g = some F ∧ F.denyWrite = true)
    (hstack : G.range → r'.isMmap = true → (w.st.procs u).status = .running →
      r.addr ≠ physBase - pgSize) :
    Step G u (some p) w ⟨w.st.setPage p (some r'), { w.aux with
      mem := update w.aux.mem u (putPage (w.aux.mem u) r.addr (w.st.backing r')) }⟩ := by
  subst ht
  have hfr : r'.frame = none := by rw [hr']; exact hf
  have hra : r'.addr = r.addr := by rw [hr']
  have hrt : r'.thread = r.thread := by rw [hr']
  have hrs : r'.sector = none := by rw [hr']; exact hsec
  have hrf : r'.file = some g := by rw [hr']
  have hro : r'.readOnly = r.readOnly := by rw [hr']
  have hmo := memOut_putPage r.thread r.addr w.aux.mem (w.st.backing r')
  have hcase : ∀ {q r0}, update w.st.pages p (some r') q = some r0 →
      (q = p ∧ r' = r0) ∨ (q ≠ p ∧ w.st.pages q = some r0) := update_some_iff.mp
  have hnh : ∀ {t f' q r0}, w.st.holder f' = some t → w.st.frames f' = some q →
      w.st.pages q = some r0 → r0.frame = some f' → q ≠ p := by
    intro t f' q r0 _ hf' hq hb
    exact not_held hi hp (.inl hf) hf' hq hb
  refine ⟨?_, ?_, calm_setPage hp (fun h => absurd rfl h) rfl⟩
  · refine { hi with
      frame := hi.frame.setPage ?_ (fun f' h' => by simp [hfr] at h') hg
      table := hi.table.setPage hp hra hrt
      pte := hi.pte.setPage hi.table hp hra hro (.inl (hfr.trans hf.symm))
      map := ⟨hi.map.live, hi.map.nodup, ?_⟩
      swap := hi.swap.setPage hp (hrs.trans hsec.symm) (.inl (hfr.trans hf.symm))
        (fun h => by simp [hrs] at h)
      file := { hi.file with mmap := ?_, seg := ?_ }
      leak := fun hL => (hi.leak hL).setPage hp (hrs.trans hsec.symm)
      data := ?_
      range := ?_ }
    · intro f' h1 h2
      obtain ⟨r0, h3, h4, -⟩ := hi.frame.free h1 h2
      exact not_held hi hp (.inl hf) h2 h3 h4 rfl
    · intro v a hv
      obtain ⟨q, r0, h1, h2, h3, h4⟩ := hi.map.page hv
      have hqp : q ≠ p := by
        rintro rfl
        obtain rfl := Option.mem_unique hp h2
        simp [hm] at h4
      exact ⟨q, r0, h1, by simpa [hqp] using h2, h3, h4⟩
    · intro q r0 hq hmq
      rcases hcase hq with ⟨rfl, rfl⟩ | ⟨-, hq'⟩
      · exact ⟨g, hrf, hmm hmq⟩
      · exact hi.file.mmap hq' hmq
    · intro q r0 g0 hq hmq hg0
      rcases hcase hq with ⟨rfl, rfl⟩ | ⟨-, hq'⟩
      · obtain rfl := Option.mem_unique hrf hg0
        rw [hrt]; exact hseg hmq
      · exact hi.file.seg hq' hmq hg0
    · intro hd
      constructor
      case out =>
        intro v q r0 h1 h2 h3 h4
        rcases hcase h2 with ⟨rfl, rfl⟩ | ⟨hqp, h2'⟩
        · intro o ho
          simp only [hrs, Option.isSome_none, hrt, hra, update_self, putPage,
            pgRoundDown_add (hi.table.aligned hp) ho, pgOfs_add (hi.table.aligned hp) ho, if_true]
          rfl
        · exact ((hi.data hd).out h1 h2' h3 h4).memOut hmo (addr_ne hi hp h2' hqp) (hi.table.aligned h2')
      case inn =>
        intro v q r0 f' h1 h2 h3 h4 h5 h6
        rcases hcase h2 with ⟨rfl, rfl⟩ | ⟨hqp, h2'⟩
        · simp [hfr] at h4
        · exact ((hi.data hd).inn h1 h2' h3 h4 h5 h6).memOut hmo (addr_ne hi hp h2' hqp)
            (hi.table.aligned h2')
    · intro hG
      constructor
      case range =>
        intro v q r0 h1 h2
        rcases hcase h2 with ⟨rfl, rfl⟩ | ⟨hqp, h2'⟩
        · rw [hra]; exact (hi.range hG).range h1 hp
        · exact (hi.range hG).range h1 h2'
      case stack =>
        intro v hv
        obtain ⟨q, r0, h1, h2, h3, h4⟩ := (hi.range hG).stack hv
        by_cases hqp : q = p
        · subst hqp
          obtain rfl := Option.mem_unique hp h2
          obtain rfl := thread_of_mem hi h2 h1
          refine ⟨q, r', h1, by simp, hra.trans h3, ?_⟩
          by_contra hmr
          exact hstack hG (by simpa using hmr) hv h3
        · exact ⟨q, r0, h1, by simpa [hqp] using h2, h3, h4⟩
  · intro t htu
    have hk : Keep G t w ⟨w.st.setPage p (some r'), w.aux⟩ :=
      keep_setPage hp (fun h => absurd h.symm htu) (fun f' q r0 h1 h2 h3 h4 => hnh h1 h2 h3 h4)
        (.refl p w.aux)
        (fun _ h => h) (fun f' h' => by simp [hfr] at h')
    exact { hk with
      mem := by simp [htu]
      held := by
        intro f' q r0 hl hf' hq hb
        have hs := hk.held f' q r0 hl hf' hq hb
        exact { hs with
          data := fun hgd hd h1 h2 => (hs.data hgd hd h1 h2).memOut hmo
            (addr_ne hi hp hq (hnh hl hf' hq hb)) (hi.table.aligned hq) } }

end Pintos.Vm
