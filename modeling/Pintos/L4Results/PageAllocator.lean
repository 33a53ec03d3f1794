import Pintos.L2Code.Palloc
import Pintos.L3Proof.FsFreeMap

/-!
# Pages are handed out once

A ghost list records every allocation: the pool that was asked and the pages
that have not been freed yet. A free may cover part of an allocation, or
several that lie next to each other. `Inv` says that the bitmaps agree with
that list, `Inv.get` and `Inv.free` are its step lemmas.

* `page_allocator`: the layout of the pools, and what holds after every run.
* `no_pages_fail`: a request for zero pages fails whatever is free.
-/
namespace Pintos.Palloc

open Pintos.Core Pintos.Vm

/-! ## Pages and allocations -/

/-- The pages a pool hands out. -/
def Pool.pages (p : Pool) : Finset Nat := pagesOf p.base p.bitCnt

/-- The memory those pages take. -/
def Pool.memory (p : Pool) : Set Nat := Set.Ico p.base (p.base + pgSize * p.bitCnt)

/-- The memory from the bitmap to the pages: the pages that hold the bitmap. -/
def Pool.bitmap (p : Pool) : Set Nat := Set.Ico p.usedMap p.base

/-- Ghost: what is left of an allocation. -/
structure Alloc where
  user : Bool
  pages : Finset Nat

/-- A page that no allocation has. -/
def Free (live : List Alloc) (p : Nat) : Prop := ∀ r ∈ live, p ∉ r.pages

/-- What a caller may free: pages that are all allocated. -/
def Freeable (live : List Alloc) (a n : Nat) : Prop := pgOfs a = 0 ∧ ∀ p ∈ pagesOf a n, ¬ Free live p

/-- The allocations after a free. -/
def dropPages (live : List Alloc) (a n : Nat) : List Alloc :=
  live.map fun r => { r with pages := r.pages \ pagesOf a n }

/-- The runs of the allocator: `palloc_init`, then calls that return. -/
inductive Run (extKb limit : Nat) : St → List Alloc → Prop
  | init {s : St} (h : pallocInit extKb limit = .ok s) : Run extKb limit s []
  | get (f : Flags) (n : Nat) {s s' : St} {live : List Alloc} {a : Nat} (hr : Run extKb limit s live)
      (h : pallocGetMultiple f n s = .ok (some a, s')) : Run extKb limit s' (⟨f.user, pagesOf a n⟩ :: live)
  | getNone (f : Flags) (n : Nat) {s s' : St} {live : List Alloc} (hr : Run extKb limit s live)
      (h : pallocGetMultiple f n s = .ok (none, s')) : Run extKb limit s' live
  | free (a n : Nat) {s s' : St} {live : List Alloc} (hr : Run extKb limit s live) (hf : Freeable live a n)
      (h : pallocFreeMultiple (some a) n s = .ok ((), s')) : Run extKb limit s' (dropPages live a n)
  | freeNull (n : Nat) {s s' : St} {live : List Alloc} (hr : Run extKb limit s live)
      (h : pallocFreeMultiple none n s = .ok ((), s')) : Run extKb limit s' live

/-! ## The layout -/

/-- Where `palloc_init` puts the pools in the memory from `lo` to `hi`. -/
structure Laid (lo hi : Nat) (k u : Pool) : Prop where
  start : lo ≤ k.usedMap
  kernelMap : k.usedMap + pgSize ≤ k.base
  kernelEnd : k.base + pgSize * k.bitCnt ≤ u.usedMap
  userMap : u.usedMap + pgSize ≤ u.base
  userEnd : u.base + pgSize * u.bitCnt ≤ hi
  kernelAligned : pgSize ∣ k.base
  userAligned : pgSize ∣ u.base
  kernelFits : k.usedMap + bitmapBufSize k.bitCnt ≤ k.base
  userFits : u.usedMap + bitmapBufSize u.bitCnt ≤ u.base

variable {n limit extKb p k a : Nat} {user v : Bool} {f : Flags}

/-- A pool that fits starts with at least one page for its bitmap. -/
theorem initPool_ok {base : Nat} {p : Pool} (h : initPool base n = .ok p) :
    p.usedMap = base ∧ base + bitmapBufSize p.bitCnt ≤ p.base ∧
      (∃ bm, 1 ≤ bm ∧ p.base = base + pgSize * bm ∧ bm + p.bitCnt = n) ∧ ∀ k, p.bits k = false := by
  unfold initPool at h
  dsimp only at h
  have hpos : 1 ≤ divRoundUp (bitmapBufSize n) pgSize := by
    unfold divRoundUp bitmapBufSize pgSize
    omega
  split at h
  · cases h
  next hle =>
    split at h
    next hfit =>
      cases h
      refine ⟨rfl, by dsimp only; omega, ⟨_, hpos, by dsimp only; rw [Nat.mul_comm], by dsimp only; omega⟩,
        fun _ => rfl⟩
    · cases h

/-- start.S finds at least 1 MB. -/
theorem one_mb_le (extKb : Nat) : 256 ≤ initRamPages extKb := by
  unfold initRamPages
  omega

theorem freeEnd_eq (extKb : Nat) :
    freeStart + pgSize * ((freeEnd extKb - freeStart) / pgSize) = freeEnd extKb := by
  have hram := one_mb_le extKb
  unfold freeEnd freeStart
  generalize initRamPages extKb = n at hram
  simp only [ptov, pgSize]
  omega

/-- Two pools of `kn` and `un` pages, one after the other. -/
theorem laid_of_initPool {e start kn un : Nat} {k u : Pool} (hal : pgSize ∣ start)
    (hend : start + pgSize * (kn + un) = e) (hk : initPool start kn = .ok k)
    (hu : initPool (start + kn * pgSize) un = .ok u) : Laid start e k u := by
  obtain ⟨hk1, hk2, ⟨bk, hbk, hkb, hkn⟩, -⟩ := initPool_ok hk
  obtain ⟨hu1, hu2, ⟨bu, hbu, hub, hun⟩, -⟩ := initPool_ok hu
  simp only [pgSize] at hal hend hkb hub hu1 hu2
  constructor <;> (try unfold pgSize) <;> omega

theorem initPools_ok {start fp : Nat} {s : St} (hal : pgSize ∣ start) (h : initPools start fp limit = .ok s) :
    Laid start (start + pgSize * fp) s.kernelPool s.userPool ∧ ∀ user k, (s.pool user).bits k = false := by
  unfold initPools at h
  dsimp only at h
  generalize hup : (if fp / 2 > limit then limit else fp / 2) = up at h
  have hle : up ≤ fp := by
    rw [← hup]
    split <;> omega
  cases hk : initPool start (fp - up) with
  | error e =>
    rw [hk] at h
    cases h
  | ok k =>
    rw [hk] at h
    cases hu : initPool (start + (fp - up) * pgSize) up with
    | error e =>
      simp only [bind, Except.bind, hu] at h
      cases h
    | ok u =>
      simp only [bind, Except.bind, hu] at h
      cases h
      refine ⟨laid_of_initPool hal (by rw [Nat.sub_add_cancel hle]) hk hu, ?_⟩
      rintro (_ | _) j
      · exact (initPool_ok hk).2.2.2 j
      · exact (initPool_ok hu).2.2.2 j

theorem pallocInit_ok {s : St} (h : pallocInit extKb limit = .ok s) :
    Laid freeStart (freeEnd extKb) s.kernelPool s.userPool ∧ ∀ user k, (s.pool user).bits k = false := by
  have hal : pgSize ∣ freeStart := ⟨0xc0100, rfl⟩
  have := initPools_ok hal h
  rwa [freeEnd_eq] at this

/-! ## The invariant -/

@[simp] theorem pool_setBits_self (s : St) (user : Bool) (b : Nat → Bool) :
    (s.setBits user b).pool user = { s.pool user with bits := b } := by
  cases user <;> rfl

@[simp] theorem pool_setBits_ne (s : St) (h : v ≠ user) (b : Nat → Bool) :
    (s.setBits user b).pool v = s.pool v := by
  cases user <;> cases v <;> first | rfl | exact absurd rfl h

@[simp] theorem base_setBits (s : St) (user v : Bool) (b : Nat → Bool) :
    ((s.setBits user b).pool v).base = (s.pool v).base := by
  cases user <;> cases v <;> rfl

@[simp] theorem bitCnt_setBits (s : St) (user v : Bool) (b : Nat → Bool) :
    ((s.setBits user b).pool v).bitCnt = (s.pool v).bitCnt := by
  cases user <;> cases v <;> rfl

@[simp] theorem pages_setBits (s : St) (user v : Bool) (b : Nat → Bool) :
    ((s.setBits user b).pool v).pages = (s.pool v).pages := by
  simp [Pool.pages]

/-- The layout, and bitmaps that mark exactly the allocated pages. -/
structure Inv (lo hi : Nat) (s : St) (live : List Alloc) : Prop where
  laid : Laid lo hi s.kernelPool s.userPool
  inPool : ∀ r ∈ live, r.pages ⊆ (s.pool r.user).pages
  disjoint : live.Pairwise fun r q => Disjoint r.pages q.pages
  bits : ∀ user, ∀ k < (s.pool user).bitCnt,
    (s.pool user).bits k = true ↔ ¬ Free live ((s.pool user).base + pgSize * k)

theorem Laid.setBits {lo hi : Nat} {s : St} (h : Laid lo hi s.kernelPool s.userPool) (user : Bool)
    (b : Nat → Bool) : Laid lo hi (s.setBits user b).kernelPool (s.setBits user b).userPool := by
  cases user <;> exact ⟨h.1, h.2, h.3, h.4, h.5, h.6, h.7, h.8, h.9⟩

/-- A page right after a page of a pool is not in the other pool. -/
theorem Laid.next {lo hi : Nat} {s : St} (h : Laid lo hi s.kernelPool s.userPool) {u : Bool} {i j : Nat}
    (hi : i < (s.pool u).bitCnt) (hj : j < (s.pool v).bitCnt)
    (he : (s.pool u).base + pgSize * (i + 1) = (s.pool v).base + pgSize * j) : i + 1 < (s.pool u).bitCnt := by
  obtain ⟨-, -, hke, hum, -, -, -, -, -⟩ := h
  unfold pgSize at *
  cases u <;> cases v <;> simp only [St.pool, if_true, if_false, Bool.false_eq_true] at * <;> omega

/-- The pools have no page in common. -/
theorem Laid.pool_unique {lo hi : Nat} {s : St} (h : Laid lo hi s.kernelPool s.userPool) {u : Bool}
    (hu : p ∈ (s.pool u).pages) (hv : p ∈ (s.pool v).pages) : u = v := by
  obtain ⟨i, hi, rfl⟩ := mem_pagesOf.mp hu
  obtain ⟨j, hj, he⟩ := mem_pagesOf.mp hv
  obtain ⟨-, -, hke, hum, -, -, -, -, -⟩ := h
  unfold pgSize at *
  cases u <;> cases v <;> simp only [St.pool, if_true, if_false, Bool.false_eq_true] at * <;> omega

/-- A page of a pool, among the pages from the `k`th on. -/
theorem mem_pagesOf_page {b j : Nat} : b + pgSize * j ∈ pagesOf (b + pgSize * k) n ↔ k ≤ j ∧ j < k + n := by
  rw [mem_pagesOf]
  unfold pgSize
  constructor
  · rintro ⟨i, hi, he⟩
    omega
  · rintro ⟨h1, h2⟩
    exact ⟨j - k, by omega, by omega⟩

theorem pagesOf_subset {p : Pool} (h : k + n ≤ p.bitCnt) :
    pagesOf (p.base + pgSize * k) n ⊆ p.pages := by
  intro q hq
  obtain ⟨i, hi, rfl⟩ := mem_pagesOf.mp hq
  exact mem_pagesOf.mpr ⟨k + i, by omega, by rw [Nat.mul_add, Nat.add_assoc]⟩

theorem Inv.init {s : St} (h : pallocInit extKb limit = .ok s) :
    Inv freeStart (freeEnd extKb) s [] := by
  obtain ⟨hl, hb⟩ := pallocInit_ok h
  exact ⟨hl, nofun, .nil, fun user k _ => by simp [hb, Free]⟩

/-! ## Requests -/

/-- A request that is met took the first run of clear bits. -/
theorem pallocGetMultiple_some {s s' : St}
    (h : pallocGetMultiple f n s = .ok (some a, s')) :
    ∃ k, k + n ≤ (s.pool f.user).bitCnt ∧ (∀ y, k ≤ y → y < k + n → (s.pool f.user).bits y = false) ∧
      a = (s.pool f.user).base + pgSize * k ∧
      s' = s.setBits f.user (Fs.bitmapSetMultiple (s.pool f.user).bits k n true) := by
  unfold pallocGetMultiple at h
  split at h
  · cases h
  · dsimp only [bind, Code.get, Code.modify] at h
    cases hscan : Fs.bitmapScan (s.pool f.user).bits (s.pool f.user).bitCnt n with
    | some k =>
      rw [hscan] at h
      cases h
      obtain ⟨hk, hfree⟩ := Fs.bitmapScan_some hscan
      exact ⟨k, hk, hfree, rfl, rfl⟩
    | none =>
      rw [hscan] at h
      cases hf : f.assert <;> rw [hf] at h <;> cases h

theorem pallocGetMultiple_none {s s' : St}
    (h : pallocGetMultiple f n s = .ok (none, s')) : s' = s := by
  unfold pallocGetMultiple at h
  split at h
  · cases h
    rfl
  · dsimp only [bind, Code.get, Code.modify] at h
    cases hscan : Fs.bitmapScan (s.pool f.user).bits (s.pool f.user).bitCnt n with
    | some k =>
      rw [hscan] at h
      cases h
    | none =>
      rw [hscan] at h
      cases hf : f.assert <;> rw [hf] at h <;> cases h
      rfl

/-- A request that is not met found no run. -/
theorem scan_none_of_fails {s : St} (hn : 1 ≤ n)
    (h : ∀ a s', pallocGetMultiple f n s ≠ .ok (some a, s')) :
    Fs.bitmapScan (s.pool f.user).bits (s.pool f.user).bitCnt n = none := by
  cases hscan : Fs.bitmapScan (s.pool f.user).bits (s.pool f.user).bitCnt n with
  | none => rfl
  | some k =>
    refine absurd ?_ (h ((s.pool f.user).base + pgSize * k)
      (s.setBits f.user (Fs.bitmapSetMultiple (s.pool f.user).bits k n true)))
    unfold pallocGetMultiple
    rw [if_neg (by omega)]
    dsimp only [bind, Code.get, Code.modify]
    rw [hscan]
    rfl

variable {lo hi : Nat} {s s' : St} {live : List Alloc}

theorem not_free_iff : ¬ Free live p ↔ ∃ r ∈ live, p ∈ r.pages := by
  simp [Free]

theorem Inv.get (hinv : Inv lo hi s live)
    (h : pallocGetMultiple f n s = .ok (some a, s')) : Inv lo hi s' (⟨f.user, pagesOf a n⟩ :: live) := by
  obtain ⟨k, hk, hclear, rfl, rfl⟩ := pallocGetMultiple_some h
  have hsub := pagesOf_subset hk
  have hfree : ∀ p ∈ pagesOf ((s.pool f.user).base + pgSize * k) n, Free live p := by
    intro p hp
    obtain ⟨j, hj, rfl⟩ := mem_pagesOf.mp (hsub hp)
    obtain ⟨h1, h2⟩ := mem_pagesOf_page.mp hp
    by_contra hno
    have hset := (hinv.bits f.user j hj).mpr hno
    rw [hclear j h1 h2] at hset
    cases hset
  refine ⟨hinv.laid.setBits _ _, ?_, ?_, ?_⟩
  · intro r hr
    rw [pages_setBits]
    rcases List.mem_cons.mp hr with rfl | hr
    · exact hsub
    · exact hinv.inPool r hr
  · refine List.pairwise_cons.mpr ⟨fun r hr => Finset.disjoint_left.mpr fun p hp => hfree p hp r hr, hinv.disjoint⟩
  · intro user j hj
    rw [bitCnt_setBits] at hj
    have hcons : ¬ Free (⟨f.user, pagesOf ((s.pool f.user).base + pgSize * k) n⟩ :: live)
          ((s.pool user).base + pgSize * j) ↔
        (s.pool user).base + pgSize * j ∈ pagesOf ((s.pool f.user).base + pgSize * k) n ∨
          ¬ Free live ((s.pool user).base + pgSize * j) := by
      simp [not_free_iff]
    rw [base_setBits, hcons, ← hinv.bits user j hj]
    by_cases hu : user = f.user
    · subst hu
      rw [pool_setBits_self, mem_pagesOf_page]
      simp only [Fs.bitmapSetMultiple_apply]
      split <;> simp_all
    · -- the other pool keeps its bitmap, and the new pages are not its pages
      rw [pool_setBits_ne s hu]
      refine ⟨.inr, fun hor => hor.resolve_left fun hp => hu ?_⟩
      exact hinv.laid.pool_unique (mem_pagesOf.mpr ⟨j, hj, rfl⟩) (hsub hp)

/-- A request for at least one page that is not met finds no run of free pages. -/
theorem Inv.no_run (hinv : Inv lo hi s live) (hn : 1 ≤ n)
    (h : ∀ a s', pallocGetMultiple f n s ≠ .ok (some a, s')) (hk : k + n ≤ (s.pool f.user).bitCnt) :
    ∃ p ∈ pagesOf ((s.pool f.user).base + pgSize * k) n, ¬ Free live p := by
  obtain ⟨y, h1, h2, hy⟩ := Fs.bitmapScan_none (scan_none_of_fails hn h) hk
  exact ⟨_, mem_pagesOf_page.mpr ⟨h1, h2⟩, (hinv.bits f.user y (by omega)).mp hy⟩

/-! ## Frees -/

/-- The pages to free lie one after the other in one pool, and are marked. -/
theorem Inv.locate (hinv : Inv lo hi s live) (hf : Freeable live a n) (hn : 1 ≤ n) :
    ∃ user k, a = (s.pool user).base + pgSize * k ∧ k + n ≤ (s.pool user).bitCnt ∧
      ∀ y, k ≤ y → y < k + n → (s.pool user).bits y = true := by
  obtain ⟨r, hr, har⟩ := not_free_iff.mp (hf.2 a (mem_pagesOf.mpr ⟨0, hn, rfl⟩))
  obtain ⟨k, hk, hak⟩ := mem_pagesOf.mp (hinv.inPool r hr har)
  have hin : ∀ i < n, k + i < (s.pool r.user).bitCnt := by
    intro i hi
    induction i with
    | zero => exact hk
    | succ i ih =>
      -- the next page is allocated, so it is in some pool: the same one
      have hmem : a + pgSize * (i + 1) ∈ pagesOf a n := mem_pagesOf.mpr ⟨i + 1, hi, rfl⟩
      obtain ⟨q, hq, hp⟩ := not_free_iff.mp (hf.2 _ hmem)
      obtain ⟨j, hj, he⟩ := mem_pagesOf.mp (hinv.inPool q hq hp)
      refine hinv.laid.next (ih (by omega)) hj ?_
      rw [he, ← hak, Nat.add_assoc, ← Nat.mul_add]
      rfl
  refine ⟨r.user, k, hak.symm, by have := hin (n - 1) (by omega); omega, fun y h1 h2 => ?_⟩
  refine (hinv.bits r.user y (by have := hin (y - k) (by omega); omega)).mpr (hf.2 _ ?_)
  rw [← hak]
  exact mem_pagesOf_page.mpr ⟨h1, h2⟩

theorem pgNo_page {b i : Nat} (hb : pgSize ∣ b) : pgNo (b + pgSize * i) = pgNo b + i := by
  obtain ⟨c, rfl⟩ := hb
  unfold pgNo pgSize
  omega

/-- Of the two pools, `page_from_pool` picks the one a page is in. -/
theorem pageFromPool_iff (hl : Laid lo hi s.kernelPool s.userPool)
    (hk : k < (s.pool user).bitCnt) :
    pageFromPool (s.pool v) ((s.pool user).base + pgSize * k) = true ↔ v = user := by
  have hal : ∀ w, pgSize ∣ (s.pool w).base := by
    rintro (_ | _)
    · exact hl.kernelAligned
    · exact hl.userAligned
  rw [pageFromPool, pgNo_page (hal user), Bool.and_eq_true, decide_eq_true_eq, decide_eq_true_eq]
  constructor
  · rintro ⟨h1, h2⟩
    refine (hl.pool_unique (mem_pagesOf.mpr ⟨k, hk, rfl⟩)
      (mem_pagesOf.mpr ⟨pgNo (s.pool user).base + k - pgNo (s.pool v).base, by omega, ?_⟩)).symm
    obtain ⟨c, hc⟩ := hal user
    obtain ⟨d, hd⟩ := hal v
    unfold pgNo pgSize at *
    omega
  · rintro rfl
    omega

theorem freeInPool_eq (hl : Laid lo hi s.kernelPool s.userPool)
    (hk : k + n ≤ (s.pool user).bitCnt) (hset : ∀ y, k ≤ y → y < k + n → (s.pool user).bits y = true) :
    freeInPool user ((s.pool user).base + pgSize * k) n s =
      .ok ((), s.setBits user (Fs.bitmapSetMultiple (s.pool user).bits k n false)) := by
  have hal : pgSize ∣ (s.pool user).base := by
    cases user
    · exact hl.kernelAligned
    · exact hl.userAligned
  have hidx : pgNo ((s.pool user).base + pgSize * k) - pgNo (s.pool user).base = k := by
    rw [pgNo_page hal, Nat.add_sub_cancel_left]
  have hall : Fs.bitmapContains (s.pool user).bits k n false = false :=
    Fs.bitmapContains_eq_false.mpr fun y h1 h2 => by simp [hset y h1 h2]
  unfold freeInPool
  dsimp only [bind, Code.get, Code.modify]
  rw [hidx, if_pos ⟨hk, hall⟩]
  rfl

/-- A free of marked pages clears their bits. -/
theorem pallocFreeMultiple_eq (hl : Laid lo hi s.kernelPool s.userPool) (hn : 1 ≤ n)
    (hal : pgOfs ((s.pool user).base + pgSize * k) = 0) (hk : k + n ≤ (s.pool user).bitCnt)
    (hset : ∀ y, k ≤ y → y < k + n → (s.pool user).bits y = true) :
    pallocFreeMultiple (some ((s.pool user).base + pgSize * k)) n s =
      .ok ((), s.setBits user (Fs.bitmapSetMultiple (s.pool user).bits k n false)) := by
  have hfree := freeInPool_eq hl hk hset
  have hlt : k < (s.pool user).bitCnt := by omega
  have hkernel : pageFromPool s.kernelPool ((s.pool user).base + pgSize * k) = true ↔ false = user :=
    pageFromPool_iff (v := false) hl hlt
  have huser : pageFromPool s.userPool ((s.pool user).base + pgSize * k) = true ↔ true = user :=
    pageFromPool_iff (v := true) hl hlt
  unfold pallocFreeMultiple
  dsimp only
  rw [if_pos hal, if_neg (by omega)]
  dsimp only [bind, Code.get]
  cases user with
  | false => rw [if_pos (hkernel.mpr rfl), hfree]
  | true => rw [if_neg fun h => absurd (hkernel.mp h) nofun, if_pos (huser.mpr rfl), hfree]

theorem not_free_dropPages :
    ¬ Free (dropPages live a n) p ↔ p ∉ pagesOf a n ∧ ¬ Free live p := by
  simp only [not_free_iff, dropPages, List.mem_map]
  constructor
  · rintro ⟨_, ⟨r, hr, rfl⟩, hp⟩
    obtain ⟨h1, h2⟩ := Finset.mem_sdiff.mp hp
    exact ⟨h2, r, hr, h1⟩
  · rintro ⟨h2, r, hr, h1⟩
    exact ⟨_, ⟨r, hr, rfl⟩, Finset.mem_sdiff.mpr ⟨h1, h2⟩⟩

/-- Clearing the bits of pages that were allocated. -/
theorem Inv.drop (hinv : Inv lo hi s live) (hk : k + n ≤ (s.pool user).bitCnt) :
    Inv lo hi (s.setBits user (Fs.bitmapSetMultiple (s.pool user).bits k n false))
      (dropPages live ((s.pool user).base + pgSize * k) n) := by
  refine ⟨hinv.laid.setBits _ _, ?_, ?_, ?_⟩
  · intro q hq
    obtain ⟨r, hr, rfl⟩ := List.mem_map.mp hq
    rw [pages_setBits]
    exact Finset.sdiff_subset.trans (hinv.inPool r hr)
  · rw [dropPages, List.pairwise_map]
    exact hinv.disjoint.imp fun h => h.mono Finset.sdiff_subset Finset.sdiff_subset
  · intro v j hj
    rw [bitCnt_setBits] at hj
    rw [base_setBits, not_free_dropPages, ← hinv.bits v j hj]
    by_cases hv : v = user
    · subst hv
      rw [pool_setBits_self, mem_pagesOf_page]
      simp only [Fs.bitmapSetMultiple_apply]
      split <;> simp_all
    · rw [pool_setBits_ne s hv]
      refine ⟨fun h => ⟨fun hp => hv ?_, h⟩, And.right⟩
      exact hinv.laid.pool_unique (mem_pagesOf.mpr ⟨j, hj, rfl⟩) (pagesOf_subset hk hp)

theorem Inv.free_ok (hinv : Inv lo hi s live) (hf : Freeable live a n) :
    ∃ s', pallocFreeMultiple (some a) n s = .ok ((), s') ∧ Inv lo hi s' (dropPages live a n) := by
  rcases Nat.eq_zero_or_pos n with rfl | hn
  · have hsame : dropPages live a 0 = live := by simp [dropPages, pagesOf]
    refine ⟨s, ?_, by rwa [hsame]⟩
    unfold pallocFreeMultiple
    dsimp only
    rw [if_pos hf.1, if_pos rfl]
    rfl
  · obtain ⟨user, k, rfl, hk, hset⟩ := hinv.locate hf hn
    exact ⟨_, pallocFreeMultiple_eq hinv.laid hn hf.1 hk hset, hinv.drop hk⟩

/-! ## Every run -/

theorem Run.inv (hr : Run extKb limit s live) : Inv freeStart (freeEnd extKb) s live := by
  induction hr with
  | init h => exact .init h
  | get f n _ h ih => exact ih.get h
  | getNone f n _ h ih => exact pallocGetMultiple_none h ▸ ih
  | free a n _ hf h ih =>
    obtain ⟨s', he, hinv⟩ := ih.free_ok hf
    rw [h] at he
    cases he
    exact hinv
  | freeNull n _ h ih =>
    cases h
    exact ih

/-- The memory of the pools and of their bitmaps: in RAM above 1 MB, each
bitmap in its place, and no two of the four have a byte in common. -/
def St.WellPlaced (s : St) (extKb : Nat) : Prop :=
  (∀ user, (s.pool user).memory ⊆ Set.Ico (ptov (1024 * 1024)) (ptov (initRamPages extKb * pgSize))) ∧
  (∀ user, (s.pool user).usedMap + bitmapBufSize (s.pool user).bitCnt ≤ (s.pool user).base) ∧
  Disjoint s.kernelPool.memory s.userPool.memory ∧
  ∀ user v, Disjoint (s.pool user).memory (s.pool v).bitmap

theorem Laid.wellPlaced (h : Laid freeStart (freeEnd extKb) s.kernelPool s.userPool) :
    s.WellPlaced extKb := by
  obtain ⟨h1, h2, h3, h4, h5, -, -, h8, h9⟩ := h
  refine ⟨?_, ?_, ?_, ?_⟩
  · have hk : freeStart ≤ s.kernelPool.base := by omega
    have hu : freeStart ≤ s.userPool.base := by omega
    have hend : s.kernelPool.base + pgSize * s.kernelPool.bitCnt ≤ freeEnd extKb := by omega
    rintro (_ | _)
    · exact Set.Ico_subset_Ico hk hend
    · exact Set.Ico_subset_Ico hu h5
  · rintro (_ | _)
    · exact h8
    · exact h9
  · exact Set.Ico_disjoint_Ico.mpr (by omega)
  · rintro (_ | _) (_ | _)
    all_goals exact Set.Ico_disjoint_Ico.mpr (by simp only [St.pool, if_true, if_false, Bool.false_eq_true]; omega)

/-- For every RAM size and user page limit that `palloc_init` accepts and
every run after it: the pools lie apart from each other and from their
bitmaps, allocations are disjoint and in the pool that was asked, a request
for at least one page fails only if the pool has no run of that many free
pages, and a free of allocated pages returns. -/
theorem page_allocator {extKb limit : Nat} {s : St} {live : List Alloc} (hr : Run extKb limit s live) :
    s.WellPlaced extKb ∧
    (live.Pairwise fun r q => Disjoint r.pages q.pages) ∧
    (∀ r ∈ live, r.pages ⊆ (s.pool r.user).pages) ∧
    (∀ f n, 1 ≤ n → (∀ a s', pallocGetMultiple f n s ≠ .ok (some a, s')) →
      ¬ ∃ k, k + n ≤ (s.pool f.user).bitCnt ∧
        ∀ p ∈ pagesOf ((s.pool f.user).base + pgSize * k) n, Free live p) ∧
    (∀ a n, Freeable live a n → ∃ s', pallocFreeMultiple (some a) n s = .ok ((), s')) ∧
    ∀ n, pallocFreeMultiple none n s = .ok ((), s) := by
  have hinv := hr.inv
  refine ⟨hinv.laid.wellPlaced, hinv.disjoint, hinv.inPool, ?_, ?_, fun _ => rfl⟩
  · rintro f n hn hfail ⟨k, hk, hfree⟩
    obtain ⟨p, hp, hno⟩ := hinv.no_run hn hfail hk
    exact hno (hfree p hp)
  · intro a n hf
    obtain ⟨s', he, -⟩ := hinv.free_ok hf
    exact ⟨s', he⟩

/-- A run with 4 MB of RAM that takes two user pages. -/
theorem page_allocator_two_pages : ∃ (s : St) (a : Nat), Run 3072 100 s [⟨true, pagesOf a 2⟩] ∧ s.WellPlaced 3072 ∧
    pagesOf a 2 ⊆ s.userPool.pages := by
  have hrun : (match pallocInit 3072 100 with
      | .ok s => check (pallocGetMultiple ⟨false, true⟩ 2) s fun a _ => a.isSome
      | .error _ => false) = true := by decide
  cases hinit : pallocInit 3072 100 with
  | error e =>
    rw [hinit] at hrun
    cases hrun
  | ok s =>
    rw [hinit] at hrun
    obtain ⟨a, s', he, ha⟩ := ok_of_check hrun
    obtain ⟨a, rfl⟩ := Option.isSome_iff_exists.mp ha
    have hr := Run.get ⟨false, true⟩ 2 (.init hinit) he
    obtain ⟨hplaced, -, hin, -⟩ := page_allocator hr
    exact ⟨s', a, hr, hplaced, hin _ (List.mem_singleton_self _)⟩

/-- `palloc_get_multiple` returns a null pointer for zero pages, for which
there is always room. -/
theorem no_pages_fail : ∃ s : St, Run 3072 100 s [] ∧
    (∀ a s', pallocGetMultiple ⟨false, false⟩ 0 s ≠ .ok (some a, s')) ∧
    ∃ k, k + 0 ≤ (s.pool false).bitCnt ∧ ∀ p ∈ pagesOf ((s.pool false).base + pgSize * k) 0, Free [] p := by
  have hinit : (pallocInit 3072 100).isOk = true := by decide
  cases h : pallocInit 3072 100 with
  | error e =>
    rw [h] at hinit
    cases hinit
  | ok s => exact ⟨s, .init h, nofun, 0, Nat.zero_le _, nofun⟩

end Pintos.Palloc
