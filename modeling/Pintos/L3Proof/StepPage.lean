import Pintos.Core.Ownership
import Pintos.L3Proof.Step

/-!
# Steps of one process: page records and swap slots

A page record is changed by the process that has locked the page's frame, or
by its owner while it has no frame.
-/
namespace Pintos.Vm

open Pintos.Core Function

/-- The changes of a page record that leave tables, mappings and files alone. -/
structure Sim (r r' : Page) : Prop where
  addr : r'.addr = r.addr
  thread : r'.thread = r.thread
  readOnly : r'.readOnly = r.readOnly
  isMmap : r'.isMmap = r.isMmap
  file : ∀ g, r'.file = some g → r.file = some g

theorem Sim.refl (r : Page) : Sim r r := ⟨rfl, rfl, rfl, rfl, fun _ => id⟩

/-- Every page of `P` is a page of `P'`, and the other way round. -/
def SimPages (P P' : PageId → Option Page) : Prop :=
  (∀ q r, P q = some r → ∃ r', P' q = some r' ∧ Sim r r') ∧
    ∀ q r', P' q = some r' → ∃ r, P q = some r ∧ Sim r r'

section Records
variable {P P' : PageId → Option Page} {p : PageId} {r r' : Page}

theorem simPages_update (hp : P p = some r) (hs : Sim r r') :
    SimPages P (update P p (some r')) := by
  constructor <;> intro q r0 hq <;> by_cases h : q = p
  · subst h
    obtain rfl := Option.mem_unique hp hq
    exact ⟨r', by simp, hs⟩
  · exact ⟨r0, by simpa [h] using hq, .refl r0⟩
  · subst h
    obtain rfl : r' = r0 := by simpa using hq
    exact ⟨r, hp, hs⟩
  · exact ⟨r0, by simpa [h] using hq, .refl r0⟩

variable {T : Tid → Option PageTable} {Pr : Tid → Proc} {L : FrameId → Option Tid} {gu : PageId → Bool}

theorem TableInv.setPage (h : TableInv T P) (hp : P p = some r)
    (ha : r'.addr = r.addr) (ht : r'.thread = r.thread) :
    TableInv T (update P p (some r')) := by
  -- every page after the update has the address and the owner it had before
  have hback : ∀ q r0, update P p (some r') q = some r0 →
      ∃ r1, P q = some r1 ∧ r0.addr = r1.addr ∧ r0.thread = r1.thread := by
    intro q r0 hq
    rcases update_some_iff.mp hq with ⟨rfl, rfl⟩ | ⟨-, hq⟩
    · exact ⟨r, hp, ha, ht⟩
    · exact ⟨r0, hq, rfl, rfl⟩
  constructor
  case page =>
    intro t q hq
    obtain ⟨r0, h1, h2⟩ := h.page hq
    by_cases hqp : q = p
    · subst hqp
      obtain rfl := Option.mem_unique hp h1
      exact ⟨r', by simp, ht.trans h2⟩
    · exact ⟨r0, by simpa [hqp] using h1, h2⟩
  case nodup => exact h.nodup
  case uniq =>
    intro t q q' r0 r1 hq hq' h0 h1 he
    obtain ⟨s0, g0, e0, -⟩ := hback q r0 h0
    obtain ⟨s1, g1, e1, -⟩ := hback q' r1 h1
    exact h.uniq hq hq' g0 g1 (by rw [← e0, ← e1, he])
  case aligned =>
    intro q r0 h0
    obtain ⟨s0, g0, e0, -⟩ := hback q r0 h0
    rw [e0]; exact h.aligned g0
  case owned =>
    intro q r0 h0
    obtain ⟨s0, g0, -, e0⟩ := hback q r0 h0
    rw [e0]; exact h.owned g0

theorem MapInv.sim (h : MapInv Pr T P)
    (hs : SimPages P P') : MapInv Pr T P' where
  live := h.live
  nodup := h.nodup
  page := by
    intro t a ha
    obtain ⟨q, r0, h1, h2, h3, h4⟩ := h.page ha
    obtain ⟨r1, h5, h6⟩ := hs.1 q r0 h2
    exact ⟨q, r1, h1, h5, h6.addr.trans h3, h6.isMmap.trans h4⟩

theorem RangeInv.sim (h : RangeInv Pr T P)
    (hs : SimPages P P') : RangeInv Pr T P' where
  range := by
    intro t q r0 hq h0
    obtain ⟨s0, g0, e0⟩ := hs.2 q r0 h0
    rw [e0.addr]; exact h.range hq g0
  stack := by
    intro t ht
    obtain ⟨q, r0, h1, h2, h3, h4⟩ := h.stack ht
    obtain ⟨r1, h5, h6⟩ := hs.1 q r0 h2
    exact ⟨q, r1, h1, h5, h6.addr.trans h3, h6.isMmap.trans h4⟩

theorem FileInv.sim {files : FileId → Option File} {inodes : InodeId → Inode}
    (h : FileInv files inodes Pr P) (hs : SimPages P P') : FileInv files inodes Pr P' := { h with
  mmap := by
    intro q r0 h0 hm
    obtain ⟨s0, g0, e0⟩ := hs.2 q r0 h0
    obtain ⟨g, hg, hk⟩ := h.mmap g0 (e0.isMmap ▸ hm)
    have hf : r0.file.isSome := by
      simp only [Page.isMmap, Bool.and_eq_true] at hm
      exact hm.1.1.2
    obtain ⟨g', hg'⟩ := Option.isSome_iff_exists.1 hf
    obtain rfl := Option.mem_unique hg (e0.file g' hg')
    exact ⟨g, hg', hk⟩
  seg := by
    intro q r0 g h0 hm hf
    obtain ⟨s0, g0, e0⟩ := hs.2 q r0 h0
    rw [e0.thread]
    exact h.seg g0 (e0.isMmap ▸ hm) (e0.file g hf) }

theorem FrameInv.setPage {F : FrameId → Option PageId} (h : FrameInv F L P gu) (hn : ∀ f, L f = none → F f ≠ some p)
    (hb : ∀ f, r'.frame = some f → F f = some p) (hg : gu p = false) :
    FrameInv F L (update P p (some r')) gu where
  free := by
    intro f q hl hf
    have hq : q ≠ p := by rintro rfl; exact hn f hl hf
    simpa [hq] using h.free hl hf
  back := by
    intro q r0 f hq hf hgu
    rcases update_some_iff.mp hq with ⟨rfl, rfl⟩ | ⟨-, hq⟩
    · exact hb f hf
    · exact h.back hq hf hgu
  gone := by
    intro q r0 f hq hf hgu
    have hqp : q ≠ p := by rintro rfl; simp [hg] at hgu
    exact h.gone (by simpa [hqp] using hq) hf hgu

theorem PteInv.setPage {pd : Tid → Option Pagedir} (h : PteInv Pr pd T P gu) (ht : TableInv T P) (hp : P p = some r)
    (hra : r'.addr = r.addr) (hro : r'.readOnly = r.readOnly)
    (hf : r'.frame = r.frame ∨ ((Pr r.thread).status.alive → (pteOf (pd r.thread) r.addr).present = false)) :
    PteInv Pr pd T (update P p (some r')) gu where
  page := by
    intro t a ha hpr
    obtain ⟨q, r0, h1, h2, h3, h4, h5, h6⟩ := h.page ha hpr
    by_cases hqp : q = p
    · subst hqp
      obtain rfl := Option.mem_unique hp h2
      obtain ⟨r1, hr1, rfl⟩ := ht.page h1
      obtain rfl := Option.mem_unique hp hr1
      rcases hf with hf | hf
      · exact ⟨q, r', h1, by simp, hra.trans h3, hf.trans h4, by rw [h5, hro], h6⟩
      · subst h3
        simp [hf ha] at hpr
    · exact ⟨q, r0, h1, by simpa [hqp] using h2, h3, h4, h5, h6⟩

theorem DataInv.setPage {pd : Tid → Option Pagedir} {ram : FrameId → Nat → Byte}
    {B : Page → Nat → Byte} {saved saved' : PageId → Nat → Byte} {mem : Tid → Nat → Byte}
    (h : DataInv T P L gu pd ram B saved mem) (hsv : ∀ q, q ≠ p → saved' q = saved q)
    (hout : r'.frame = none → p ∈ elemsOf (T r'.thread) → r'.isMmap = false →
      Stored B saved' mem p r')
    (hinn : ∀ f, r'.frame = some f → L f ≠ none ∧ (pteOf (pd r'.thread) r'.addr).present = false)
    (ht : ∀ t, p ∈ elemsOf (T t) → r'.thread = t) :
    DataInv T (update P p (some r')) L gu pd ram B saved' mem where
  out := by
    intro t q r0 h1 h2 h3 h4
    rcases update_some_iff.mp h2 with ⟨rfl, rfl⟩ | ⟨hqp, h2⟩
    · exact hout h4 (ht t h1 ▸ h1) h3
    · intro o ho
      rw [hsv q hqp]
      exact h.out h1 h2 h3 h4 o ho
  inn := by
    intro t q r0 f h1 h2 h3 h4 h5 h6
    rcases update_some_iff.mp h2 with ⟨rfl, rfl⟩ | ⟨-, h2⟩
    · obtain rfl := ht t h1
      obtain ⟨h7, h8⟩ := hinn f h4
      exact absurd h6 (by simp [h7, h8])
    · exact h.inn h1 h2 h3 h4 h5 h6

section Swap
variable {used : Nat → Bool} {disk : Nat → Nat → Byte} {slots : Nat} {claim : Nat → Option Tid}
  {released swapping released' swapping' gu' : PageId → Bool} {saved : PageId → Nat → Byte}
  (h : SwapInv P L gu used disk slots claim released swapping saved)
include h

theorem SwapInv.setPage (hp : P p = some r) (hsec : r'.sector = r.sector)
    (hfr : r'.frame = r.frame ∨ (released p = false ∧ swapping p = false))
    (hnf : r'.sector.isSome → r'.frame = none → r'.file = none) :
    SwapInv (update P p (some r')) L gu used disk slots claim released swapping saved := by
  -- a page after the update has the sector it had before
  have hback : ∀ q r0 x, update P p (some r') q = some r0 → r0.sector = some x →
      ∃ r1, P q = some r1 ∧ r1.sector = some x := by
    intro q r0 x hq hx
    rcases update_some_iff.mp hq with ⟨rfl, rfl⟩ | ⟨-, hq⟩
    · exact ⟨r, hp, hsec ▸ hx⟩
    · exact ⟨r0, hq, hx⟩
  constructor
  case busy =>
    intro q r0 hq hb
    rcases update_some_iff.mp hq with ⟨rfl, rfl⟩ | ⟨-, hq⟩
    · rcases hfr with hfr | ⟨h1, h2⟩
      · obtain ⟨h1, f, v, h2, h3⟩ := h.busy hp hb
        exact ⟨h1, f, v, hfr.trans h2, h3⟩
      · simp [h1, h2] at hb
    · exact h.busy hq hb
  case slot =>
    intro q r0 x hq hx
    obtain ⟨r1, h1, h2⟩ := hback q r0 x hq hx
    exact h.slot h1 h2
  case excl =>
    intro q q' r0 r1 x hq hq' hx hx'
    obtain ⟨s0, h1, h2⟩ := hback q r0 x hq hx
    obtain ⟨s1, h3, h4⟩ := hback q' r1 x hq' hx'
    exact h.excl h1 h3 h2 h4
  case claimed =>
    intro t k hk
    obtain ⟨h1, h2, h3⟩ := h.claimed hk
    refine ⟨h1, h2, fun q r0 hq hx => ?_⟩
    obtain ⟨s0, h4, h5⟩ := hback q r0 _ hq hx
    exact h3 q s0 h4 h5
  case noFile =>
    intro q r0 hq hx hf
    rcases update_some_iff.mp hq with ⟨rfl, rfl⟩ | ⟨-, hq⟩
    · exact hnf hx hf
    · exact h.noFile hq hx hf
  case contents =>
    intro q r0 x hq hx
    obtain ⟨s0, h4, h5⟩ := hback q r0 x hq hx
    exact h.contents h4 h5

/-- Page `p` has no slot and is not busy, and nothing else changes. -/
theorem SwapInv.apart (hslot : ∀ {q r x}, P' q = some r → r.sector = some x → q ≠ p ∧ P q = some r)
    (hbusy : ∀ {q r}, P' q = some r → released' q = true ∨ swapping' q = true → q ≠ p ∧ P q = some r)
    (hgu : ∀ q, q ≠ p → gu' q = gu q) (hrel : ∀ q, q ≠ p → released' q = released q)
    (hsw : ∀ q, q ≠ p → swapping' q = swapping q) :
    SwapInv P' L gu' used disk slots claim released' swapping' saved := by
  constructor
  case busy =>
    intro q r0 hq hb
    obtain ⟨hqp, hq'⟩ := hbusy hq hb
    rw [hrel q hqp, hsw q hqp] at hb
    rw [hgu q hqp]
    exact h.busy hq' hb
  case slot =>
    intro q r0 x hq hx
    obtain ⟨hqp, hq'⟩ := hslot hq hx
    rw [hrel q hqp]
    exact h.slot hq' hx
  case excl =>
    intro q q' r0 r1 x hq hq' hx hx' h1 h2
    obtain ⟨hqp, g1⟩ := hslot hq hx
    obtain ⟨hqp', g2⟩ := hslot hq' hx'
    rw [hrel q hqp] at h1
    rw [hrel q' hqp'] at h2
    exact h.excl g1 g2 hx hx' h1 h2
  case claimed =>
    intro t k hk
    obtain ⟨h1, h2, h3⟩ := h.claimed hk
    refine ⟨h1, h2, fun q r0 hq hx => ?_⟩
    obtain ⟨hqp, hq'⟩ := hslot hq hx
    rw [hrel q hqp]
    exact h3 q r0 hq' hx
  case noFile =>
    intro q r0 hq hx
    obtain ⟨x, hx'⟩ := Option.isSome_iff_exists.1 hx
    exact h.noFile (hslot hq hx').2 hx
  case contents =>
    intro q r0 x hq hx h1 h2
    obtain ⟨hqp, hq'⟩ := hslot hq hx
    rw [hrel q hqp] at h1
    rw [hsw q hqp] at h2
    exact h.contents hq' hx h1 h2

end Swap

theorem LeakInv.setPage {used : Nat → Bool} {claim : Nat → Option Tid} {released : PageId → Bool}
    (h : LeakInv P used claim released) (hp : P p = some r) (hsec : r'.sector = r.sector) :
    LeakInv (update P p (some r')) used claim released := by
  intro k hk
  refine (h k hk).imp_right ?_
  rintro ⟨q, r0, h1, h2, h3⟩
  by_cases hqp : q = p
  · subst hqp
    obtain rfl := Option.mem_unique hp h1
    exact ⟨q, r', by simp, hsec ▸ h2, h3⟩
  · exact ⟨q, r0, by simpa [hqp] using h1, h2, h3⟩

end Records

variable {r' : Page}

theorem Evolves.of_sim {r : Page} {f : FrameId} (hs : Sim r r') (hb : r.frame = some f)
    (hf : r'.frame = r.frame ∨ r'.frame = none)
    (hm : r.isMmap = true → r' = { r with frame := r'.frame }) : Evolves r r' where
  addr := hs.addr
  readOnly := hs.readOnly
  thread := hs.thread
  isMmap := hs.isMmap
  out := fun h => by simp [hb] at h
  frame := hf
  mmap := hm

/-! ## Steps on a page record -/

variable {G : Goals} {t u : Tid} {w : W} {f : FrameId} {p : PageId} {r : Page}

/-- The auxiliary state changes at page `p` only. -/
structure AuxAt (p : PageId) (a a' : Aux) : Prop where
  mem : a'.mem = a.mem
  givenUp : a'.givenUp = a.givenUp
  released : ∀ q, q ≠ p → a'.released q = a.released q
  swapping : ∀ q, q ≠ p → a'.swapping q = a.swapping q
  saved : ∀ q, q ≠ p → a'.saved q = a.saved q

theorem AuxAt.refl (p : PageId) (a : Aux) : AuxAt p a a := ⟨rfl, rfl, fun _ _ => rfl, fun _ _ => rfl, fun _ _ => rfl⟩

theorem keep_setPage {a' : Aux} (hp : w.st.pages p = some r)
    (hev : r.thread = t → Evolves r r')
    (hne : ∀ f q r0, w.st.holder f = some t → w.st.frames f = some q → w.st.pages q = some r0 →
      r0.frame = some f → q ≠ p)
    (ha : AuxAt p w.aux a') (hcl : ∀ k, w.aux.claim k = some t → a'.claim k = some t)
    (hfr : ∀ f, r'.frame = some f → r.frame = some f ∨ w.st.holder f ≠ some t) :
    Keep G t w ⟨w.st.setPage p (some r'), a'⟩ where
  __ := Keep.refl G t w
  away := by
    intro f q hl hq r0 hr0 hf
    rcases update_some_iff.mp hr0 with ⟨rfl, rfl⟩ | ⟨-, hr0⟩
    · exact (hfr f hf).elim (hq r hp) (fun h => h hl)
    · exact hq r0 hr0 hf
  claim := hcl
  mem := congrFun ha.mem t
  own := by
    intro q r0 hq ht
    refine ⟨?_, congrFun ha.givenUp q⟩
    by_cases hqp : q = p
    · subst hqp
      obtain rfl := Option.mem_unique hp hq
      exact ⟨r', by simp, hev ht⟩
    · exact ⟨r0, by simpa [hqp] using hq, .refl r0⟩
  held := by
    intro f' q r0 hl hf hq hb
    have hqp := hne f' q r0 hl hf hq hb
    exact { HeldSame.refl G f' hq with
      page := by simpa [hqp] using hq
      givenUp := congrFun ha.givenUp q
      released := ha.released q hqp
      swapping := ha.swapping q hqp
      saved := ha.saved q hqp
      data := by
        intro _ hd
        have hm : a'.mem = w.aux.mem := ha.mem
        simp only [DataAt, hm]
        exact hd }

theorem calm_setPage {a' : Aux} {x : Option PageId} (hp : w.st.pages p = some r)
    (hev : x ≠ some p → r.thread = u → Evolves r r') (hg : a'.givenUp = w.aux.givenUp) :
    Calm u x w ⟨w.st.setPage p (some r'), a'⟩ where
  __ := Calm.refl u x w
  own := by
    intro q r0 hx hq ht
    refine ⟨?_, congrFun hg q⟩
    by_cases hqp : q = p
    · subst hqp
      obtain rfl := Option.mem_unique hp hq
      exact ⟨r', by simp, hev hx ht⟩
    · exact ⟨r0, by simpa [hqp] using hq, .refl r0⟩

theorem Held.not_free (h : Held u f p r w) (hi : Inv G w) (f' : FrameId)
    (hl : w.st.holder f' = none) : w.st.frames f' ≠ some p := by
  intro hf
  obtain ⟨r0, h1, h2, -⟩ := hi.frame.free hl hf
  obtain rfl := Option.mem_unique h.page h1
  obtain rfl := Option.mem_unique h.back h2
  cases hl.symm.trans h.lock

theorem thread_of_mem (hi : Inv G w) (hp : w.st.pages p = some r) (h : p ∈ w.st.table t) :
    r.thread = t := by
  obtain ⟨r0, h1, h2⟩ := hi.table.page h
  obtain rfl := Option.mem_unique hp h1
  exact h2

/-- A page record changes in a way that only the swap slots and the data notice. -/
theorem inv_setPage {a' : Aux} (hi : Inv G w) (hp : w.st.pages p = some r) (hs : Sim r r') (ha : AuxAt p w.aux a')
    (hn : ∀ f, w.st.holder f = none → w.st.frames f ≠ some p) (hb : ∀ f, r'.frame = some f → w.st.frames f = some p)
    (hg : w.aux.givenUp p = false) (hf : r'.frame = r.frame ∨ ((w.st.procs r.thread).status.alive → Off r w))
    (hswap : SwapInv (update w.st.pages p (some r')) w.st.holder w.aux.givenUp w.st.swapUsed w.st.swapDisk
      w.st.swapSlots a'.claim a'.released a'.swapping a'.saved)
    (hleak : G.leak → LeakInv (update w.st.pages p (some r')) w.st.swapUsed a'.claim a'.released)
    (hout : G.data → r'.frame = none → p ∈ w.st.table r'.thread → r'.isMmap = false →
      Stored w.st.backing a'.saved w.aux.mem p r')
    (hinn : ∀ f, r'.frame = some f → w.st.holder f ≠ none ∧ Off r w) :
    Inv G ⟨w.st.setPage p (some r'), a'⟩ := by
  have hsim := simPages_update hp hs
  obtain ⟨mem, givenUp, claim, released, swapping, saved⟩ := a'
  obtain ⟨rfl, rfl, -, -, hsaved⟩ := ha
  exact { hi with
    frame := hi.frame.setPage hn hb hg
    table := hi.table.setPage hp hs.addr hs.thread
    pte := hi.pte.setPage hi.table hp hs.addr hs.readOnly hf
    map := hi.map.sim hsim
    swap := hswap
    file := hi.file.sim hsim
    leak := hleak
    data := fun hd => (hi.data hd).setPage hsaved (hout hd) (fun f hf => ⟨(hinn f hf).1, by
      rw [hs.thread, hs.addr]
      exact (hinn f hf).2⟩) fun t ht => hs.thread.trans (thread_of_mem hi hp ht)
    range := fun hr => (hi.range hr).sim hsim }

/-- A page in a locked frame that is not mapped changes, or loses the frame. -/
theorem step_setHeld {a' : Aux} (hi : Inv G w) (h : Held u f p r w) (hoff : Off r w) (hs : Sim r r')
    (hfr : r'.frame = r.frame ∨ r'.frame = none) (hm : r.isMmap = true → r' = { r with frame := r'.frame })
    (ha : AuxAt p w.aux a') (hcl : ∀ t, t ≠ u → ∀ k, w.aux.claim k = some t → a'.claim k = some t)
    (hswap : SwapInv (update w.st.pages p (some r')) w.st.holder w.aux.givenUp w.st.swapUsed w.st.swapDisk
      w.st.swapSlots a'.claim a'.released a'.swapping a'.saved)
    (hleak : G.leak → LeakInv (update w.st.pages p (some r')) w.st.swapUsed a'.claim a'.released)
    (hout : G.data → r'.frame = none → p ∈ w.st.table r'.thread → r'.isMmap = false →
      Stored w.st.backing a'.saved w.aux.mem p r') :
    Step G u none w ⟨w.st.setPage p (some r'), a'⟩ := by
  have hev : Evolves r r' := .of_sim hs h.back hfr hm
  have hback : ∀ {f'}, r'.frame = some f' → f = f' := fun h' => by
    rcases hfr with hfr | hfr
    · simpa using h.back.symm.trans (hfr.symm.trans h')
    · cases hfr.symm.trans h'
  refine ⟨inv_setPage hi h.page hs ha (h.not_free hi) (fun f' h' => hback h' ▸ h.frame) h.kept (.inr fun _ => hoff)
      hswap hleak hout fun f' h' => ⟨?_, hoff⟩,
    fun t ht => keep_setPage h.page (fun _ => hev) (fun f' q r0 hl hf' hq hb' => h.ne ht hl hq hb') ha (hcl t ht)
      fun f' h' => .inl (hback h' ▸ h.back),
    calm_setPage h.page (fun _ _ => hev) ha.givenUp⟩
  rw [← hback h', h.lock]
  nofun

/-- A member of a page in a locked frame that is neither `frame` nor `sector`
is changed. -/
theorem step_modHeld (hi : Inv G w) (h : Held u f p r w) (hoff : Off r w) (hs : Sim r r')
    (hm : r.isMmap = false) (hf : r'.frame = r.frame) (hsec : r'.sector = r.sector) :
    Step G u none w ⟨w.st.setPage p (some r'), w.aux⟩ := by
  have hb : r'.frame ≠ none := by simp [hf, h.back]
  exact step_setHeld hi h hoff hs (.inl hf) (by simp [hm]) (.refl p w.aux) (fun _ _ _ hk => hk)
    (hi.swap.setPage h.page hsec (.inl hf) fun _ h' => absurd h' hb) (fun hl => (hi.leak hl).setPage h.page hsec)
    fun _ h' => absurd h' hb

/-- A page without a frame has no entry that is present. -/
theorem off_of_noFrame (hi : Inv G w) (hp : w.st.pages p = some r) (hn : r.frame = none)
    (ha : (w.st.procs r.thread).status.alive) : Off r w := by
  by_contra hpr
  simp only [Off, Bool.not_eq_false] at hpr
  obtain ⟨q, r0, h1, h2, h3, h4, -⟩ := hi.pte.page ha hpr
  obtain rfl := hi.table.uniq h1 (hi.table.owned hp) h2 hp h3
  obtain rfl := Option.mem_unique hp h2
  simp [hn] at h4

theorem quiet_of_noFrame (hi : Inv G w) (hp : w.st.pages p = some r) (hn : r.frame = none) :
    Quiet p w := by
  by_contra hb
  have : w.aux.released p = true ∨ w.aux.swapping p = true := by
    simpa [Quiet, or_iff_not_imp_left] using hb
  obtain ⟨-, f', v, h1, -⟩ := hi.swap.busy hp this
  simp [hn] at h1

/-- `p->frame = f` for a frame that has been taken for `p`. -/
theorem step_insertFrame (hi : Inv G w) (hl : w.st.holder f = some u) (hf : w.st.frames f = some p)
    (hp : w.st.pages p = some r) (ht : r.thread = u) (hn : r.frame = none)
    (hg : w.aux.givenUp p = false) (ha : (w.st.procs u).status.alive) :
    Step G u (some p) w ⟨w.st.setPage p (some { r with frame := some f }), w.aux⟩ := by
  have hoff := off_of_noFrame hi hp hn (ht ▸ ha)
  refine ⟨inv_setPage hi hp { Sim.refl r with } (.refl p w.aux) ?_ (fun f' h' => ?_) hg (.inr fun _ => hoff)
      (hi.swap.setPage hp rfl (.inr (quiet_of_noFrame hi hp hn)) nofun) (fun hk => (hi.leak hk).setPage hp rfl) nofun
      fun f' h' => ?_,
    fun t htu => keep_setPage hp (fun h => absurd (h.symm.trans ht) htu) ?_ (.refl p w.aux) (fun _ hk => hk) ?_,
    calm_setPage hp (fun h => absurd rfl h) rfl⟩
  · intro f' h1 h2
    obtain ⟨r0, h3, h4, -⟩ := hi.frame.free h1 h2
    simp_all
  · obtain rfl : f = f' := by simpa using h'
    exact hf
  · obtain rfl : f = f' := by simpa using h'
    exact ⟨by simp [hl], hoff⟩
  · rintro f' q r0 - - hq hb rfl
    simp_all
  · intro f' h'
    obtain rfl : f = f' := by simpa using h'
    exact .inr fun hl' => htu (Option.mem_unique hl' hl)

/-- `p->frame = NULL` at the end of `page_out`. -/
theorem step_dropFrame (hi : Inv G w) (h : Held u f p r w) (hoff : Off r w) (hq : Quiet p w)
    (hnf : r.sector.isSome → r.file = none)
    (hd : G.data → p ∈ w.st.table r.thread → r.isMmap = false →
      Stored w.st.backing w.aux.saved w.aux.mem p { r with frame := none }) :
    Step G u none w ⟨w.st.setPage p (some { r with frame := none }), w.aux⟩ :=
  step_setHeld hi h hoff { Sim.refl r with } (.inr rfl) (fun _ => rfl) (.refl p w.aux) (fun _ _ _ hk => hk)
    (hi.swap.setPage h.page rfl (.inr hq) fun hx _ => hnf hx) (fun hk => (hi.leak hk).setPage h.page rfl)
    fun hg _ => hd hg

end Pintos.Vm
