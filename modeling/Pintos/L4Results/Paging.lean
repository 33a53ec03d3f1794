import Pintos.L4Results.AddressSpace

/-!
# Private memory and swap space

What survives paging, and who owns which swap slot.

`page_out` (vm/page.c:137-181) loses data in three cases, all in the code that
replaced the original choice between swap and file: a page without a file is
swapped out first and, if its entry is dirty, is then treated as if it had a
file; `ok` of that first `swap_out` is overwritten, so a clean page without a
file is dropped when swap is full; and a failed eviction of a dirty page of
the executable leaves it in its frame without its dirty bit. `DataOk` excludes
the three, and a read from the executable that is cut short because its
bounce buffer cannot be allocated.

`destroy_page` frees a page without its swap slot. `LeakOk` excludes it.
-/
namespace Pintos.Vm

open Pintos.Core

variable {s : St} {c : Config kernel}

/-! ## Private memory -/

/-- The page at `a` of process `t` is no mmap page. -/
def St.privateAt (s : St) (t : Tid) (a : Nat) : Prop :=
  ∀ p r, p ∈ s.table t → s.pages p = some r → r.addr = pgRoundDown a → r.isMmap = false

instance (s : St) (t : Tid) (a : Nat) : Decidable (s.privateAt t a) :=
  decidable_of_iff (∀ p ∈ s.table t, ∀ r ∈ s.pages p, r.addr = pgRoundDown a → r.isMmap = false) (by
    simp only [St.privateAt, Option.mem_def]
    exact ⟨fun h p r hp hr => h p hp r hr, fun h p hp r hr => h p r hp hr⟩)

instance (t : Tid) (l : Lbl) (e : Option Nat) (s : St) : Decidable (DataOk t l e s) :=
  match l with
  | .clearPage p =>
    decidable_of_iff (∀ r ∈ s.pages p, r.file.isSome ∨ (s.pte r.thread r.addr).dirty = false) Iff.rfl
  | .swapFull p =>
    decidable_of_iff (∀ r ∈ s.pages p, r.file = none → ∀ f ∈ r.frame, ∀ o < pgSize, s.ram f o = 0)
      ⟨fun h r f hr hn hf => h r hr hn f hf, fun h r hr hn f hf => h r f hr hn hf⟩
  | .setPage p =>
    decidable_of_iff (∀ r ∈ s.pages p, r.file.isSome →
      r.isMmap = true ∨ (s.pte r.thread r.addr).dirty = false) Iff.rfl
  | .readFile _ => decidable_of_iff (e.isSome = true) Iff.rfl
  | .tau | .swapMark _ | .setSector _ _ | .swapWrite _ _ | .swapReset _ | .clearSector _ | .freeFrame _
  | .allocPage | .freePage _ | .setFile _ | .initCmdLine _ | .load _ | .store _ _ | .mapRange _ _ =>
    isTrue trivial

/-- What a load gets is in the frame of a present entry. -/
theorem userByte_some {t : Tid} {a : Nat} {b : Byte} (h : userByte s t a = some b) :
    (s.pte t (pgRoundDown a)).present = true ∧ b = s.ram (s.pte t (pgRoundDown a)).frame (pgOfs a) := by
  simp only [userByte, kernelByte] at h
  split at h
  · split at h
    · exact ⟨‹_›, by simpa using h.symm⟩
    · cases h
  · cases h

/-- **Private user memory survives paging**, in the runs that meet `DataOk`,
and no eviction dereferences a null `p->file`. -/
theorem private_memory_survives (hb : Boot s) (h : RunsOk DataOk s c) :
    (∀ t a b, (c.st.procs t).status.alive → c.st.privateAt t a → userByte c.st t a = some b →
      b = c.aux.mem t a) ∧
    ∀ m, kernel.Meets DataOk c m → kernel.panics c m ≠ some .nullFile := by
  let G : Goals := ⟨True, False, False⟩
  have hok : ∀ t l e s, DataOk t l e s → (logic G).ok t l e s :=
    fun _ _ _ _ hd => ⟨fun _ => hd, False.elim, False.elim⟩
  have hg : (logic G).Good c := good_of_runs hok hb h
  have hi : Inv G ⟨c.st, c.aux⟩ := hg.1
  refine ⟨fun t a b ha hpr hub => ?_, fun m hm hp => (hg.tol (hm.mono hok) hp).2.2 trivial rfl⟩
  obtain ⟨hpres, rfl⟩ := userByte_some hub
  -- the entry is that of a page of the process, and its frame holds the specified memory
  obtain ⟨p, r, h1, h2, h3, h4, -, h6⟩ := hi.pte.page ha hpres
  have hin := (hi.data trivial).inn h1 h2 (hpr p r h1 h2 h3) h4 h6 (.inr (h3 ▸ hpres))
  have hth := thread_of_mem hi h2 h1
  have := (hin (pgOfs a) (pgOfs_lt a)).1
  rwa [hth, h3, pgRoundDown_add_pgOfs] at this

/-- Stack growth on a machine with one frame: the page at `0xbfffe000` takes
the frame of the initial stack page. -/
def growStack : List (Move kernel) := script 0 (.access 0xbfffe800 0xbfffe800 none) (fresh 100 56)

/-- A load from the initial stack page after that. -/
def loadStack (n : Nat) : List (Move kernel) := script 0 (.access 0xbfffe800 0xbffff800 none) (fresh 200 n)

/-- The initial stack page goes out to swap and comes back with its `argv[0]`. -/
theorem private_memory_survives_swap : ∃ c, RunsOk DataOk (smallMachine 1 4) c ∧
    userByte c.st 0 0xbffffffe = some 0x61 ∧ c.aux.mem 0 0xbffffffe = 0x61 := by
  obtain ⟨c, hc, hchk⟩ := exists_run DataOk (smallMachine 1 4) (startSmall 0 ++ growStack ++ loadStack 66)
    (fun c => decide ((c.st.procs 0).status = .running ∧ c.st.privateAt 0 0xbffffffe ∧
      userByte c.st 0 0xbffffffe = some 0x61)) (by decide +kernel)
  obtain ⟨h1, h2, h3⟩ := of_decide_eq_true hchk
  have ha : (c.st.procs 0).status.alive := by rw [h1]; exact ⟨nofun, nofun⟩
  exact ⟨c, hc, h3, ((private_memory_survives (smallMachine_boot 1 4) hc).1 0 _ _ ha h2 h3).symm⟩

/-- A process stores to its initial stack page and then grows its stack: the
eviction of the initial stack page dereferences a null `p->file`. -/
theorem dirty_stack_eviction : ∃ s c m, Boot s ∧ kernel.Reachable (kernel.idle s .init) c ∧
    kernel.panics c m = some .nullFile := by
  obtain ⟨c, hc, hchk⟩ := exists_reachable (smallMachine 1 4)
    (startSmall 0 ++ script 0 (.access 0xbffff000 0xbffff800 (some 7)) (fresh 0 13) ++
      script 0 (.access 0xbffff000 0xbffff800 (some 7)) (fresh 0 1) ++
      script 0 (.access 0xbfffe800 0xbfffe800 none) (fresh 100 54))
    (fun c => decide (kernel.panics c (.run 0 none) = some .nullFile)) (by decide +kernel)
  exact ⟨_, c, .run 0 none, smallMachine_boot 1 4, hc, of_decide_eq_true hchk⟩

/-! ## Swap slots -/

theorem slot_inside {k : Nat} (h : k < s.swapSlots) : k * pageSectors + pageSectors ≤ s.swapSize := by
  have : (k + 1) * pageSectors ≤ s.swapSize / pageSectors * pageSectors := Nat.mul_le_mul_right _ h
  have := Nat.div_mul_le_self s.swapSize pageSectors
  rw [Nat.succ_mul] at *
  omega

/-- **Swap slot exclusivity.** The exceptions are a page that `swap_in` has
read back, whose slot it has marked free and whose `sector` it is about to
clear (`released`), and, for the contents of the slot, a page that `swap_out`
is writing (`swapping`). The frame of such a page is locked. -/
theorem swap_slots_exclusive (hb : Boot s) (h : kernel.Reachable (kernel.idle s .init) c) :
    (∀ p q r r' x, c.st.pages p = some r → c.st.pages q = some r' → r.sector = some x →
      r'.sector = some x → c.aux.released p = false → c.aux.released q = false → p = q) ∧
    (∀ p r x, c.st.pages p = some r → r.sector = some x →
      ∃ k, x = k * pageSectors ∧ x + pageSectors ≤ c.st.swapSize ∧
        (c.aux.released p = false → c.st.swapUsed k = true)) ∧
    (∀ p r x, c.st.pages p = some r → r.sector = some x → c.aux.released p = false →
      c.aux.swapping p = false → ∀ o < pgSize,
        c.st.swapDisk (x + o / blockSectorSize) (o % blockSectorSize) = c.aux.saved p o) ∧
    (∀ t p (γ : Type) (f : Tid → Option Nat → St → Out sig γ) k, c.thr t = .act (.clearSector p) f k →
      ∀ o < pgSize, c.st.frameBytes p o = c.aux.saved p o) ∧
    ∀ p r, c.st.pages p = some r → (c.aux.released p = true ∨ c.aux.swapping p = true) →
      ∃ f u, r.frame = some f ∧ c.st.locks (.frame f) = some u := by
  have hg := good_of_reachable hb h
  have hi : Inv .none ⟨c.st, c.aux⟩ := hg.1
  refine ⟨fun p q r r' x hp hq hx hx' h1 h2 => hi.swap.excl hp hq hx hx' h1 h2, fun p r x hp hx => ?_,
    fun p r x hp hx h1 h2 => hi.swap.contents hp hx h1 h2, fun t p γ f k ht => hg.holds ht,
    fun p r hp hbz => (hi.swap.busy hp hbz).2⟩
  obtain ⟨k, rfl, hk, hu⟩ := hi.swap.slot hp hx
  exact ⟨k, rfl, slot_inside hk, hu⟩

/-- The initial stack page of a process has been swapped out. -/
theorem swap_slots_exclusive_swapped : ∃ c, kernel.Reachable (kernel.idle (smallMachine 1 4) .init) c ∧
    ∃ p r k, c.st.pages p = some r ∧ r.sector = some (k * pageSectors) ∧ c.st.swapUsed k = true := by
  obtain ⟨c, hc, hchk⟩ := exists_reachable (smallMachine 1 4) (startSmall 0 ++ growStack)
    (fun c => (c.st.pages 7).any (fun r : Page => decide (r.sector = some 0)) && !c.aux.released 7)
    (by decide +kernel)
  simp only [Bool.and_eq_true, Option.any_eq_true, decide_eq_true_eq, Bool.not_eq_true'] at hchk
  obtain ⟨⟨r, h1, h2⟩, h3⟩ := hchk
  obtain ⟨k, h4, -, h5⟩ := (swap_slots_exclusive (smallMachine_boot 1 4) hc).2.1 7 r 0 h1 h2
  exact ⟨c, hc, 7, r, k, h1, h4 ▸ h2, h5 h3⟩

/-- `swap_in` has marked the slot of a page free and not yet cleared `p->sector`. -/
theorem swap_in_frees_slot_first : ∃ s c, Boot s ∧ kernel.Reachable (kernel.idle s .init) c ∧
    ∃ p r k, c.st.pages p = some r ∧ r.sector = some (k * pageSectors) ∧ c.st.swapUsed k = false := by
  obtain ⟨c, hc, hchk⟩ := exists_reachable (smallMachine 1 4) (startSmall 0 ++ growStack ++ loadStack 60)
    (fun c => (c.st.pages 7).any (fun r : Page => decide (r.sector = some (0 * pageSectors))) &&
      !c.st.swapUsed 0) (by decide +kernel)
  simp only [Bool.and_eq_true, Option.any_eq_true, decide_eq_true_eq, Bool.not_eq_true'] at hchk
  obtain ⟨⟨r, h1, h2⟩, h3⟩ := hchk
  exact ⟨_, c, smallMachine_boot 1 4, hc, 7, r, 0, h1, h2, h3⟩

/-! ## Swap space -/

instance (t : Tid) (l : Lbl) (e : Option Nat) (s : St) : Decidable (LeakOk t l e s) :=
  match l with
  | .freePage p => decidable_of_iff (∀ r ∈ s.pages p, r.sector = none) Iff.rfl
  | .tau | .clearPage _ | .setPage _ | .swapMark _ | .swapFull _ | .setSector _ _ | .swapWrite _ _
  | .swapReset _ | .clearSector _ | .freeFrame _ | .allocPage | .setFile _ | .readFile _
  | .initCmdLine _ | .load _ | .store _ _ | .mapRange _ _ => isTrue trivial

/-- A slot that a page or a running `swap_out` owns is marked used. -/
theorem used_of_owned {G : Goals} {w : W} (hi : Inv G w) {k : Nat}
    (h : (w.aux.claim k).isSome ∨
      ∃ p r, w.st.pages p = some r ∧ r.sector = some (k * pageSectors) ∧ w.aux.released p = false) :
    w.st.swapUsed k = true := by
  rcases h with h | ⟨p, r, hp, hx, hr⟩
  · obtain ⟨t, ht⟩ := Option.isSome_iff_exists.1 h
    exact (hi.swap.claimed ht).1
  · obtain ⟨k', hk, -, hu⟩ := hi.swap.slot hp hx
    obtain rfl : k = k' := Nat.eq_of_mul_eq_mul_right (by decide) hk
    exact hu hr

/-- **Swap space is accounted for**, in the runs in which no page is freed
while it has a swap slot: a used slot is that of a live page or has just been
marked by a `swap_out` that is about to record it. When no process is between
the two updates of `swap_out` or of `swap_in`, the used slots are those of the
live pages. -/
theorem swap_space_accounted (hb : Boot s) (h : RunsOk LeakOk s c) :
    (∀ k, c.st.swapUsed k = true ↔ (c.aux.claim k).isSome ∨
      ∃ p r, c.st.pages p = some r ∧ r.sector = some (k * pageSectors) ∧ c.aux.released p = false) ∧
    ((∀ k, c.aux.claim k = none) → (∀ p, c.aux.released p = false) →
      ∀ k, c.st.swapUsed k = true ↔ ∃ p r, c.st.pages p = some r ∧ r.sector = some (k * pageSectors)) := by
  have hi : Inv ⟨False, True, False⟩ ⟨c.st, c.aux⟩ :=
    inv_of_runs (fun _ _ _ _ hl => ⟨False.elim, fun _ => hl, False.elim⟩) hb h
  have hall : ∀ k, c.st.swapUsed k = true ↔ (c.aux.claim k).isSome ∨
      ∃ p r, c.st.pages p = some r ∧ r.sector = some (k * pageSectors) ∧ c.aux.released p = false :=
    fun k => ⟨hi.leak trivial k, used_of_owned hi⟩
  refine ⟨hall, fun hcl hre k => ?_⟩
  simp only [hall, hcl, hre, Option.isSome_none, Bool.false_eq_true, false_or, and_true]

/-- The initial stack page of a process has been swapped out, and the process
still runs. -/
theorem swap_space_accounted_swapped : ∃ c, RunsOk LeakOk (smallMachine 1 4) c ∧
    ((c.aux.claim 0).isSome ∨
      ∃ p r, c.st.pages p = some r ∧ r.sector = some (0 * pageSectors) ∧ c.aux.released p = false) := by
  obtain ⟨c, hc, hchk⟩ := exists_run LeakOk (smallMachine 1 4) (startSmall 0 ++ growStack)
    (fun c => c.st.swapUsed 0) (by decide +kernel)
  exact ⟨c, hc, ((swap_space_accounted (smallMachine_boot 1 4) hc).1 0).1 hchk⟩

/-- A process exits while its initial stack page is swapped out: no page is
left, and the slot stays marked used. -/
theorem exit_leaks_swap_slot : ∃ s c, Boot s ∧ kernel.Reachable (kernel.idle s .init) c ∧
    c.st.swapUsed 0 = true ∧ (∀ p, c.st.pages p = none) := by
  obtain ⟨c, hc, hchk⟩ := exists_run (fun t _ _ _ => t = 0) (smallMachine 1 4)
    (startSmall 0 ++ growStack ++
      script 0 .exit (List.replicate 5 (some 7) ++ List.replicate 15 (some 105)))
    (fun c => c.st.swapUsed 0 && (c.st.table 0).isEmpty) (by decide +kernel)
  simp only [Bool.and_eq_true, List.isEmpty_iff] at hchk
  have hb := smallMachine_boot 1 4
  have hr : kernel.Reachable (kernel.idle (smallMachine 1 4) .init) c := hc.mono fun _ _ _ _ _ => trivial
  have hi : Inv .none ⟨c.st, c.aux⟩ := (good_of_reachable hb hr).1
  refine ⟨_, c, hb, hr, hchk.1, fun p => ?_⟩
  -- a page is in the table of its process, and only process 0 has run
  by_contra hp
  obtain ⟨r, hr⟩ := Option.ne_none_iff_exists'.1 hp
  have hmem := hi.table.owned hr
  by_cases ht : r.thread = 0
  · rw [ht] at hmem
    simp only [St.table] at hchk
    simp [hchk.2] at hmem
  · obtain ⟨-, hT, -⟩ := hi.fresh r.thread (unstarted_of_runs hb hc ht)
    rw [hT] at hmem
    cases hmem

end Pintos.Vm
