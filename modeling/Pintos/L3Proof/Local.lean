import Pintos.L3Proof.StepSwap
import Pintos.L3Proof.StepMem

/-!
# What a process knows

Assertions about the running process and the frame it has locked, that no
other process can invalidate.

* `Ctx t c`: the private data of `t`, pages of `t` up to evictions, and
  entries of `t` that are not present.
* `Locked`: a locked frame as `lock_acquire` finds it.
* `Parked`: a locked frame whose page is not mapped, with a condition on what
  then cannot change (`View`).
-/
namespace Pintos.Vm

open Pintos.Core

variable {G : Goals} {t : Tid} {w w' : W} {f : FrameId} {p : PageId} {r : Page}

theorem stable_of_keep {P : W → Prop}
    (h : ∀ w w', Inv G w → Inv G w' → Keep G t w w' → P w → P w') : (logic G).Stable t P := by
  rintro w w' ⟨hi, hi', u, hu, hg⟩ hw
  exact h w w' hi hi' (hg t (Ne.symm hu)) hw

/-! ## Private data -/

/-- What a process knows of its own: its descriptor and its table, pages up to
evictions, entries that are not present, and the page whose frame it has
handed back, if any. -/
structure Known where
  proc : Proc
  table : Option PageTable
  own : PageId → Option Page
  off : Nat → Prop
  gone : Option PageId

theorem Evolves.trans {r' r'' : Page} (h : Evolves r r') (h' : Evolves r' r'') : Evolves r r'' where
  addr := h'.addr.trans h.addr
  readOnly := h'.readOnly.trans h.readOnly
  thread := h'.thread.trans h.thread
  isMmap := h'.isMmap.trans h.isMmap
  out := fun hn => by
    have h1 := h.out hn
    subst h1
    exact h'.out hn
  frame := by
    rcases h'.frame with h1 | h1
    · rw [h1]; exact h.frame
    · exact .inr h1
  mmap := fun hm => by
    have h1 := h.mmap hm
    have h2 := h'.mmap (h.isMmap.trans hm)
    rw [h2, h1]

structure Ctx (t : Tid) (c : Known) (w : W) : Prop where
  proc : w.st.procs t = c.proc
  table : w.st.tables t = c.table
  own : ∀ p r0, c.own p = some r0 → ∃ r, w.st.pages p = some r ∧ Evolves r0 r ∧ r.thread = t
  off : ∀ a, c.off a → (w.st.pte t a).present = false
  gone : ∀ p ∈ elemsOf c.table, w.aux.givenUp p = decide (c.gone = some p)

variable {c : Known}

theorem Ctx.calm {x : Option PageId} (h : Ctx t c w) (hi : Inv G w) (hc : Calm t x w w')
    (hx : ∀ p, x = some p → c.own p = none ∧ w'.aux.givenUp p = w.aux.givenUp p) : Ctx t c w' where
  proc := hc.proc.trans h.proc
  table := hc.table.trans h.table
  own := by
    intro p r0 hp
    obtain ⟨r, h1, h2, h3⟩ := h.own p r0 hp
    have hne : x ≠ some p := fun he => by simp [(hx p he).1] at hp
    obtain ⟨⟨r', h5, h6⟩, -⟩ := hc.own p r hne h1 h3
    exact ⟨r', h5, h2.trans h6, h6.thread.trans h3⟩
  off := fun a ha => hc.off a (h.off a ha)
  gone := by
    intro p hp
    obtain ⟨r, h1, h2⟩ := hi.table.page (h.table ▸ hp)
    rw [← h.gone p hp]
    by_cases hxp : x = some p
    · exact (hx p hxp).2
    · exact (hc.own p r hxp h1 h2).2

theorem Ctx.step (h : Ctx t c w) (hi : Inv G w) (hs : Step G t none w w') : Ctx t c w' :=
  h.calm hi hs.calm nofun

theorem stable_ctx : (logic G).Stable t (Ctx t c) :=
  stable_of_keep fun _ _ hi _ hk h => h.calm hi (hk.calm none) nofun

/-- A page without a frame does not change. -/
theorem Ctx.mine (h : Ctx t c w) {r0 : Page} (hp : c.own p = some r0) (hf : r0.frame = none) :
    w.st.pages p = some r0 ∧ r0.thread = t := by
  obtain ⟨r, h1, h2, h3⟩ := h.own p r0 hp
  obtain rfl := h2.out hf
  exact ⟨h1, h3⟩

/-- A page of the process has not handed back its frame. -/
theorem Ctx.kept (h : Ctx t c w) (hi : Inv G w) (hp : w.st.pages p = some r) (ht : r.thread = t)
    (hg : c.gone = none) : w.aux.givenUp p = false := by
  have hmem : p ∈ elemsOf c.table := by
    have := hi.table.owned hp
    rwa [ht, h.table] at this
  simpa [hg] using h.gone p hmem

/-- Page `p` of the process is as `r` says. -/
def Known.setOwn (c : Known) (p : PageId) (r : Page) : Known :=
  { c with own := Function.update c.own p (some r) }

theorem Ctx.setOwn (h : Ctx t c w) (hp : w.st.pages p = some r) (ht : r.thread = t) :
    Ctx t (c.setOwn p r) w := { h with
  own := by
    intro q r0 hq
    by_cases hqp : q = p
    · subst hqp
      obtain rfl : r = r0 := by simpa [Known.setOwn] using hq
      exact ⟨r, hp, .refl r, ht⟩
    · exact h.own q r0 (by simpa [Known.setOwn, hqp] using hq) }

/-! ## A locked frame -/

theorem Held.same (h : Held t f p r w) (hs : HeldSame G f p r w w') (hl : w'.st.holder f = some t)
    (hf : w'.st.frames f = w.st.frames f) : Held t f p r w' :=
  ⟨hl, hf.trans h.frame, hs.page, h.back, hs.givenUp.trans h.kept⟩

theorem Keep.heldSame (hk : Keep G t w w') (h : Held t f p r w) :
    HeldSame G f p r w w' ∧ w'.st.holder f = some t ∧ w'.st.frames f = w.st.frames f :=
  ⟨hk.held f p r h.lock h.frame h.page h.back, (hk.lock _).1 h.lock, hk.frame f h.lock⟩

structure Locked (G : Goals) (t : Tid) (f : FrameId) (p : PageId) (r : Page) (w : W) : Prop where
  held : Held t f p r w
  quiet : Quiet p w
  sector : r.sector = none
  data : G.data → DataAt w p r f

theorem Locked.same (h : Locked G t f p r w) (hs : HeldSame G f p r w w')
    (hl : w'.st.holder f = some t) (hf : w'.st.frames f = w.st.frames f) : Locked G t f p r w' :=
  ⟨h.held.same hs hl hf, ⟨hs.released.trans h.quiet.1, hs.swapping.trans h.quiet.2⟩, h.sector,
    fun hd => hs.data hd (h.data hd)⟩

theorem stable_locked : (logic G).Stable t (Locked G t f p r) :=
  stable_of_keep fun _ _ _ _ hk h => by
    obtain ⟨hs, hl, hf⟩ := hk.heldSame h.held
    exact h.same hs hl hf

theorem Locked.releasable (h : Locked G t f p r w) : Releasable G f w := by
  intro q hq
  obtain rfl := Option.mem_unique h.held.frame hq
  exact ⟨r, h.held.page, h.held.back, h.sector, h.held.kept, h.quiet, h.data⟩

/-- A frame that has just been locked. -/
def FrameLocked (G : Goals) (t : Tid) (f : FrameId) (w : W) : Prop :=
  w.st.holder f = some t ∧ (w.st.frames f = none ∨ ∃ p r, Locked G t f p r w)

theorem FrameLocked.releasable (h : FrameLocked G t f w) : Releasable G f w := by
  rcases h.2 with hn | ⟨p, r, hl⟩
  · intro q hq; simp [hn] at hq
  · exact hl.releasable

theorem stable_frameLocked : (logic G).Stable t (FrameLocked G t f) :=
  stable_of_keep fun _ _ _ _ hk h => by
    refine ⟨(hk.lock _).1 h.1, ?_⟩
    rcases h.2 with hn | ⟨p, r, hl⟩
    · exact .inl ((hk.frame f h.1).trans hn)
    · obtain ⟨hs, hl', hf⟩ := hk.heldSame hl.held
      exact .inr ⟨p, r, hl.same hs hl' hf⟩

/-- Acquiring a free lock gives a frame in a consistent state. -/
theorem frameLocked_acquire (hi : Inv G w) (hl : w.st.holder f = none) :
    FrameLocked G t f ⟨w.st.setLock (.frame f) (some t), w.aux⟩ := by
  refine ⟨by simp [St.holder], ?_⟩
  cases hf : w.st.frames f with
  | none => exact .inl hf
  | some p =>
    obtain ⟨r, h1, h2, h3, h4⟩ := hi.frame.free hl hf
    refine .inr ⟨p, r, ⟨by simp [St.holder], hf, h1, h2, h4⟩, ?_, h3, ?_⟩
    · by_contra hq
      have hb : w.aux.released p = true ∨ w.aux.swapping p = true := by
        simpa [Quiet, or_iff_not_imp_left] using hq
      obtain ⟨-, f', v, h5, h6⟩ := hi.swap.busy h1 hb
      obtain rfl := Option.mem_unique h2 h5
      cases hl.symm.trans h6
    · intro hd hm hmm
      exact (hi.data hd).inn hm h1 hmm h2 h4 (.inl hl)

/-! ## A locked frame whose page is not mapped -/

structure View where
  released : Bool
  swapping : Bool
  saved : Nat → Byte
  dirty : Bool
  ram : Nat → Byte

def view (f : FrameId) (p : PageId) (r : Page) (w : W) : View :=
  ⟨w.aux.released p, w.aux.swapping p, w.aux.saved p, (w.st.pte r.thread r.addr).dirty, w.st.ram f⟩

structure Parked (t : Tid) (f : FrameId) (p : PageId) (r : Page) (Q : View → Prop) (w : W) : Prop where
  held : Held t f p r w
  off : Off r w
  view : Q (view f p r w)

/-- The frame of a page holds its data. -/
def Current (G : Goals) (f : FrameId) (p : PageId) (r : Page) (w : W) : Prop :=
  G.data → DataAt w p r f

theorem HeldSame.view_eq (hs : HeldSame G f p r w w') (ho : Off r w) : view f p r w' = view f p r w := by
  obtain ⟨-, h2, h3⟩ := hs.off ho
  simp only [view, hs.released, hs.swapping, hs.saved, h2, h3]

variable {Q : View → Prop}

theorem Parked.same (h : Parked t f p r Q w) (hs : HeldSame G f p r w w')
    (hl : w'.st.holder f = some t) (hf : w'.st.frames f = w.st.frames f) : Parked t f p r Q w' :=
  ⟨h.held.same hs hl hf, (hs.off h.off).1, hs.view_eq h.off ▸ h.view⟩

theorem stable_parked : (logic G).Stable t (Parked t f p r Q) :=
  stable_of_keep fun _ _ _ _ hk h => by
    obtain ⟨hs, hl, hf⟩ := hk.heldSame h.held
    exact h.same hs hl hf

theorem stable_parkedCurrent :
    (logic G).Stable t fun w => Parked t f p r Q w ∧ Current G f p r w :=
  stable_of_keep fun _ _ _ _ hk h => by
    obtain ⟨hs, hl, hf⟩ := hk.heldSame h.1.held
    exact ⟨h.1.same hs hl hf, fun hd => hs.data hd (h.2 hd)⟩

theorem Parked.mono {Q' : View → Prop} (h : Parked t f p r Q w) (hQ : ∀ v, Q v → Q' v) :
    Parked t f p r Q' w :=
  ⟨h.held, h.off, hQ _ h.view⟩

/-- The copy of a page of `t` outside memory is its specified memory. -/
def StoredAt (t : Tid) (p : PageId) (r : Page) (w : W) : Prop :=
  p ∈ w.st.table t → r.isMmap = false → Stored w.st.backing w.aux.saved w.aux.mem p r

theorem stable_parkedStored (ht : r.thread = t) :
    (logic G).Stable t fun w => Parked t f p r Q w ∧ (G.data → StoredAt t p r w) :=
  stable_of_keep fun w w' _ _ hk h => by
    obtain ⟨hs, hl, hf⟩ := hk.heldSame h.1.held
    refine ⟨h.1.same hs hl hf, fun hd hm hmm o ho => ?_⟩
    have := h.2 hd (by simpa only [St.table, hk.table] using hm) hmm o ho
    rw [hs.saved, hk.backing p r h.1.held.page ht hmm, ht, hk.mem]
    rwa [ht] at this

/-! ## Other stable facts -/

theorem stable_lock {l : Lock} : (logic G).Stable t fun w => w.st.locks l = some t :=
  stable_of_keep fun _ _ _ _ hk h => (hk.lock l).1 h

theorem stable_claim {k : Nat} : (logic G).Stable t fun w => w.aux.claim k = some t :=
  stable_of_keep fun _ _ _ _ hk h => hk.claim k h

theorem stable_slots {n : Nat} : (logic G).Stable t fun w => w.st.swapSlots = n :=
  stable_of_keep fun _ _ _ _ hk h => by simp only [St.swapSlots, hk.size]; exact h

/-- Process `t` has locked frame `f`, whose `page` member is `o`. -/
def Taken (t : Tid) (f : FrameId) (o : Option PageId) (w : W) : Prop :=
  w.st.holder f = some t ∧ w.st.frames f = o

theorem stable_taken {o : Option PageId} : (logic G).Stable t (Taken t f o) :=
  stable_of_keep fun _ _ _ _ hk h => ⟨(hk.lock _).1 h.1, (hk.frame f h.1).trans h.2⟩

/-- A frame that `t` has locked and whose page has lost it. -/
def Vacated (t : Tid) (f : FrameId) (p : PageId) (w : W) : Prop :=
  Taken t f (some p) w ∧ ∀ r, w.st.pages p = some r → r.frame ≠ some f

theorem stable_vacated : (logic G).Stable t (Vacated t f p) :=
  stable_of_keep fun _ _ _ _ hk h =>
    ⟨⟨(hk.lock _).1 h.1.1, (hk.frame f h.1.1).trans h.1.2⟩, hk.away f p h.1.1 h.2⟩

end Pintos.Vm
