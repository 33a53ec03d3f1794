import Pintos.L2Code.Malloc

/-!
# The invariant of the kernel heap

A ghost map gives each arena its `Kind`: blocks of one descriptor in one page,
or one block of several pages. `InvK` says that arenas lie apart in pages the
heap holds, that their headers are as their kind says, and that each block of
a free list or in use is a block of an arena. The lemmas after it are the
edits the code makes: a write inside an arena, a new arena, a block taken from
a free list or put on one, an arena given back.
-/
namespace Pintos.Malloc

open Pintos.Core Pintos.Vm Function List
open Pintos.Palloc (pagesOf mem_pagesOf)

/-! ## Arenas and blocks -/

inductive Kind
  | small (d : Desc) (i : Nat)    -- `d` is `descs[i]`
  | big (n : Nat)

namespace Kind

def pages : Kind → Nat
  | small _ _ => 1
  | big n => n

/-- The length of the blocks. -/
def len : Kind → Nat
  | small d _ => d.blockSize
  | big n => pgSize * n - arenaSize

def desc : Kind → Option (Desc × Nat)
  | small d i => some (d, i)
  | big _ => none

/-- The word that stands for the pointer to the descriptor. -/
def ptr : Kind → Nat
  | small _ i => i + 1
  | big _ => 0

def Ok : Kind → Prop
  | small d i => descs[i]? = some d
  | big n => 1 ≤ n ∧ n < 2 ^ 20

/-- `b` is a block of the arena at `a`. -/
def IsBlock (a b : Nat) : Kind → Prop
  | small d _ => ∃ idx < d.blocksPerArena, b = a + arenaSize + idx * d.blockSize
  | big _ => b = a + arenaSize

end Kind

/-- What the table of descriptors guarantees. -/
theorem desc_ok {d : Desc} {i : Nat} (h : descs[i]? = some d) :
    16 ≤ d.blockSize ∧ 1 ≤ d.blocksPerArena ∧ arenaSize + d.blocksPerArena * d.blockSize ≤ pgSize ∧ i < 10 := by
  have hall : ∀ d ∈ descs, 16 ≤ d.blockSize ∧ 1 ≤ d.blocksPerArena ∧
      arenaSize + d.blocksPerArena * d.blockSize ≤ pgSize := by decide
  have hlen : descs.length = 7 := rfl
  obtain ⟨hi, -⟩ := List.getElem?_eq_some_iff.mp h
  obtain ⟨h1, h2, h3⟩ := hall d (List.mem_of_getElem? h)
  exact ⟨h1, h2, h3, by omega⟩

section
variable {kd : Kind} {a b c : Nat}

theorem Kind.Ok.pages_pos (h : kd.Ok) : 1 ≤ kd.pages := by
  cases kd with
  | small d i => exact Nat.le_refl 1
  | big n => exact h.1

theorem idx_bound {d : Desc} {i idx : Nat} (h : descs[i]? = some d) (hidx : idx < d.blocksPerArena) :
    arenaSize + idx * d.blockSize + d.blockSize ≤ pgSize := by
  have hle : (idx + 1) * d.blockSize ≤ d.blocksPerArena * d.blockSize := Nat.mul_le_mul_right _ hidx
  have := (desc_ok h).2.2.1
  rw [Nat.add_mul, Nat.one_mul] at hle
  omega

/-- A block lies behind the header, in the pages of the arena. -/
theorem Kind.IsBlock.bounds (hb : kd.IsBlock a b) (hok : kd.Ok) :
    a + arenaSize ≤ b ∧ b + kd.len ≤ a + pgSize * kd.pages ∧ b < a + pgSize := by
  cases kd with
  | small d i =>
    obtain ⟨idx, hidx, rfl⟩ := hb
    have hbound := idx_bound hok hidx
    have hpos := (desc_ok hok).1
    simp only [Kind.len, Kind.pages]
    omega
  | big n =>
    obtain rfl : b = a + arenaSize := hb
    have hn := hok.1
    simp only [Kind.len, Kind.pages, pgSize, arenaSize]
    omega

theorem Kind.IsBlock.round (hb : kd.IsBlock a b) (hok : kd.Ok) (ha : pgOfs a = 0) : pgRoundDown b = a := by
  obtain ⟨h1, -, h2⟩ := hb.bounds hok
  unfold pgOfs at ha
  unfold pgRoundDown
  unfold pgSize at *
  omega

/-- Two blocks of one arena are the same or lie apart. -/
theorem Kind.IsBlock.apart (hb : kd.IsBlock a b) (hc : kd.IsBlock a c) (hne : b ≠ c) :
    b + kd.len ≤ c ∨ c + kd.len ≤ b := by
  cases kd with
  | small d i =>
    obtain ⟨x, hx, rfl⟩ := hb
    obtain ⟨y, hy, rfl⟩ := hc
    have hxy : x ≠ y := fun h => hne (by rw [h])
    rcases Nat.lt_or_gt_of_ne hxy with h | h
    · have : (x + 1) * d.blockSize ≤ y * d.blockSize := Nat.mul_le_mul_right _ h
      rw [Nat.add_mul] at this
      simp only [Kind.len]
      omega
    · have : (y + 1) * d.blockSize ≤ x * d.blockSize := Nat.mul_le_mul_right _ h
      rw [Nat.add_mul] at this
      simp only [Kind.len]
      omega
  | big n => exact absurd (hb.trans hc.symm) hne

end

/-! ## The code on one arena -/

/-- An arena whose header is intact, the count apart. -/
structure Header (s : St) (a : Nat) (kd : Kind) : Prop where
  ne : a ≠ 0
  page : pgOfs a = 0
  ok : kd.Ok
  magic : s.word a = arenaMagic
  desc : s.word (a + 4) = kd.ptr

section
variable {s : St} {a b : Nat} {kd : Kind}

theorem require_eq {c : Prop} [Decidable c] (h : c) (s : St) : require c s = .ok ((), s) := by
  rw [require, if_pos h]
  rfl

theorem getWord_eq (s : St) (a : Nat) : getWord a s = .ok (s.word a, s) := rfl

theorem arenaDesc_eq (h : Header s a kd) : arenaDesc a s = .ok (kd.desc, s) := by
  suffices hOk : Ok (arenaDesc a) s fun r s' => r = kd.desc ∧ s' = s by
    obtain ⟨r, s', he, rfl, rfl⟩ := hOk
    exact he
  unfold arenaDesc
  refine ok_bind.mpr ⟨_, _, getWord_eq s (a + 4), ?_⟩
  rw [h.desc]
  cases kd with
  | big n =>
    rw [Kind.ptr, if_pos rfl]
    exact (ok_pure _).mpr ⟨rfl, rfl⟩
  | small d i =>
    have hk : descs[i]? = some d := h.ok
    rw [Kind.ptr, if_neg (Nat.succ_ne_zero i), Nat.add_sub_cancel, hk]
    exact (ok_pure _).mpr ⟨rfl, rfl⟩

variable {d : Desc} {i : Nat}

/-- The assertion on the alignment of a block, in 32 bits. -/
theorem aligned_of_idx {idx ofs : Nat} (h : descs[i]? = some d) (hidx : idx < d.blocksPerArena)
    (hofs : ofs = arenaSize + idx * d.blockSize) : sub32 ofs arenaSize % d.blockSize = 0 := by
  have hbound := idx_bound h hidx
  have hsum : ofs + 2 ^ 32 - arenaSize = idx * d.blockSize + 2 ^ 32 := by omega
  have hlt : idx * d.blockSize < 2 ^ 32 := by
    unfold pgSize at hbound
    omega
  rw [sub32, hsum, Nat.add_mod_right, Nat.mod_eq_of_lt hlt, Nat.mul_mod_left]

theorem blockToArena_eq (h : Header s a kd) (hb : kd.IsBlock a b) : blockToArena b s = .ok (a, s) := by
  have hround := hb.round h.ok h.page
  have hofs : pgOfs b = b - a := by
    have : b % pgSize ≤ b := Nat.mod_le ..
    rw [← hround, pgRoundDown, pgOfs]
    omega
  suffices hOk : Ok (blockToArena b) s fun r s' => r = a ∧ s' = s by
    obtain ⟨r, s', he, rfl, rfl⟩ := hOk
    exact he
  rw [blockToArena, hround]
  unfold checkArena
  refine ok_bind.mpr ⟨_, _, require_eq h.ne s, ok_bind.mpr ⟨_, _, getWord_eq s a, ?_⟩⟩
  refine ok_bind.mpr ⟨_, _, require_eq h.magic s, ok_bind.mpr ⟨_, _, arenaDesc_eq h, ?_⟩⟩
  cases kd with
  | small d i =>
    refine ok_bind.mpr ⟨_, _, require_eq ?_ s, (ok_pure a).mpr ⟨rfl, rfl⟩⟩
    obtain ⟨idx, hidx, rfl⟩ := hb
    exact aligned_of_idx h.ok hidx (by omega)
  | big n =>
    obtain rfl : b = a + arenaSize := hb
    exact ok_bind.mpr ⟨_, _, require_eq (by omega) s, (ok_pure a).mpr ⟨rfl, rfl⟩⟩

theorem arenaToBlock_eq {idx : Nat} (h : Header s a (.small d i)) (hidx : idx < d.blocksPerArena) :
    arenaToBlock a idx s = .ok (a + arenaSize + idx * d.blockSize, s) := by
  suffices hOk : Ok (arenaToBlock a idx) s fun r s' => r = a + arenaSize + idx * d.blockSize ∧ s' = s by
    obtain ⟨r, s', he, rfl, rfl⟩ := hOk
    exact he
  unfold arenaToBlock
  refine ok_bind.mpr ⟨_, _, require_eq h.ne s, ok_bind.mpr ⟨_, _, getWord_eq s a, ?_⟩⟩
  refine ok_bind.mpr ⟨_, _, require_eq h.magic s, ok_bind.mpr ⟨_, _, arenaDesc_eq h, ?_⟩⟩
  exact ok_bind.mpr ⟨_, _, require_eq hidx s, (ok_pure _).mpr ⟨rfl, rfl⟩⟩

theorem Header.setList (h : Header s a kd) (i : Nat) (l : List Nat) : Header (s.setList i l) a kd :=
  ⟨h.ne, h.page, h.ok, h.magic, h.desc⟩

/-- The blocks of an arena with numbers in `l`. -/
def blocksOf (d : Desc) (a : Nat) (l : List Nat) : List Nat := l.map fun idx => a + arenaSize + idx * d.blockSize

@[simp] theorem setList_self (s : St) (i : Nat) (l : List Nat) : (s.setList i l).freeList i = l :=
  update_self ..

theorem setList_ne (s : St) {j : Nat} (h : j ≠ i) (l : List Nat) : (s.setList i l).freeList j = s.freeList j :=
  update_of_ne h ..

@[simp] theorem setList_setList (s : St) (i : Nat) (l l' : List Nat) :
    (s.setList i l).setList i l' = s.setList i l' := by
  simp [St.setList]

theorem getWord_setList (s : St) (i : Nat) (l : List Nat) (x : Nat) :
    getWord x (s.setList i l) = .ok (s.word x, s.setList i l) := rfl

theorem addBlocks_eq (l : List Nat) (h : Header s a (.small d i))
    (hl : ∀ idx ∈ l, idx < d.blocksPerArena) :
    addBlocks i a l s = .ok ((), s.setList i (s.freeList i ++ blocksOf d a l)) := by
  induction l generalizing s with
  | nil => simp [addBlocks, blocksOf, St.setList]; rfl
  | cons idx rest ih =>
    have hrest := ih (h.setList i (s.freeList i ++ [a + arenaSize + idx * d.blockSize]))
      fun j hj => hl j (mem_cons_of_mem _ hj)
    rw [setList_self, setList_setList, append_assoc] at hrest
    rw [addBlocks]
    dsimp only [bind]
    rw [arenaToBlock_eq h (hl idx mem_cons_self)]
    exact hrest

/-- The blocks are on the list, so each `list_remove` finds its block. -/
theorem removeBlocks_eq (l : List Nat) (h : Header s a (.small d i))
    (hl : ∀ idx ∈ l, idx < d.blocksPerArena) (hnd : (blocksOf d a l).Nodup) (hmem : blocksOf d a l ⊆ s.freeList i) :
    removeBlocks i a l s = .ok ((), s.setList i ((s.freeList i).diff (blocksOf d a l))) := by
  suffices hOk : Ok (removeBlocks i a l) s fun _ s' => s' = s.setList i ((s.freeList i).diff (blocksOf d a l)) by
    obtain ⟨_, s', he, rfl⟩ := hOk
    exact he
  induction l generalizing s with
  | nil => exact (ok_pure ()).mpr (by simp [blocksOf, St.setList])
  | cons idx rest ih =>
    obtain ⟨hnot, hnd'⟩ := nodup_cons.mp hnd
    obtain ⟨hb, hsub⟩ : a + arenaSize + idx * d.blockSize ∈ s.freeList i ∧ blocksOf d a rest ⊆ s.freeList i :=
      cons_subset.mp hmem
    rw [removeBlocks]
    refine ok_bind.mpr ⟨_, _, arenaToBlock_eq h (hl idx mem_cons_self), ok_bind.mpr (ok_get.mpr ?_)⟩
    rw [if_pos hb]
    refine ok_bind.mpr ((ok_modify _).mpr ?_)
    have hsub' : blocksOf d a rest ⊆ (s.freeList i).erase (a + arenaSize + idx * d.blockSize) := by
      refine fun x hx => (mem_erase_of_ne ?_).mpr (hsub hx)
      rintro rfl
      exact hnot hx
    refine (ih (h.setList i _) (fun j hj => hl j (mem_cons_of_mem _ hj)) hnd' ?_).mono ?_
    · rwa [setList_self]
    · rintro _ _ rfl
      rw [setList_self, setList_setList]
      simp only [blocksOf, map_cons, diff_cons]

end

/-! ## The invariant -/

/-- A block in use and the number of bytes that were asked for. -/
structure Live where
  addr : Nat
  size : Nat

/-- The blocks of the arena at `a` on a list. -/
def inArena (a : Nat) (l : List Nat) : List Nat := l.filter fun b => pgRoundDown b = a

/-- What the third word of the header holds. -/
def Kind.cnt (s : St) (a : Nat) : Kind → Nat
  | small _ i => (inArena a (s.freeList i)).length
  | big n => n

/-- The invariant, for arenas of the kinds `K`. -/
structure InvK (K : Nat → Option Kind) (s : St) (live : List Live) : Prop where
  header : ∀ {a kd}, K a = some kd → Header s a kd
  cnt : ∀ {a kd}, K a = some kd → s.word (a + 8) = kd.cnt s a
  held : ∀ {a kd}, K a = some kd → pagesOf a kd.pages ⊆ s.pages
  apart : ∀ {a kd a' kd'}, K a = some kd → K a' = some kd' →
    a = a' ∨ a + pgSize * kd.pages ≤ a' ∨ a' + pgSize * kd'.pages ≤ a
  free : ∀ {i b}, b ∈ s.freeList i → ∃ a d, K a = some (.small d i) ∧ (Kind.small d i).IsBlock a b
  nodup : ∀ i, (s.freeList i).Nodup
  used : ∀ p ∈ live, ∃ a kd, K a = some kd ∧ kd.IsBlock a p.addr ∧ (∀ i, p.addr ∉ s.freeList i) ∧
    (p.size + arenaSize < 2 ^ 32 → p.size ≤ kd.len)
  liveNodup : (live.map Live.addr).Nodup

def Inv (s : St) (live : List Live) : Prop := ∃ K, InvK K s live

section
variable {K : Nat → Option Kind} {s s' : St} {live : List Live} {a b : Nat} {kd : Kind}

/-- The arena of a block is its page. -/
theorem InvK.round (h : InvK K s live) (ha : K a = some kd) (hb : kd.IsBlock a b) : pgRoundDown b = a :=
  hb.round (h.header ha).ok (h.header ha).page

variable {c n i : Nat} {kd' : Kind} {d : Desc} {l : List Nat}

/-- A block determines its arena. -/
theorem InvK.unique (h : InvK K s live) (ha : K a = some kd) (hb : kd.IsBlock a b)
    (hc : K c = some kd') (hb' : kd'.IsBlock c b) : a = c ∧ kd = kd' := by
  have hac : a = c := (h.round ha hb).symm.trans (h.round hc hb')
  subst hac
  rw [ha] at hc
  exact ⟨rfl, Option.some.inj hc⟩

/-- Blocks in use lie apart from each other and from free ones. -/
theorem InvK.blocks_apart {b' : Nat} (h : InvK K s live) (ha : K a = some kd) (hb : kd.IsBlock a b)
    (hc : K c = some kd') (hb' : kd'.IsBlock c b') (hne : b ≠ b') : b + kd.len ≤ b' ∨ b' + kd'.len ≤ b := by
  have h1 := hb.bounds (h.header ha).ok
  have h2 := hb'.bounds (h.header hc).ok
  rcases h.apart ha hc with rfl | hlt
  · rw [ha] at hc
    cases hc
    exact hb.apart hb' hne
  · unfold arenaSize at *
    omega

/-- Two arenas lie apart, header by header. -/
theorem InvK.header_apart (h : InvK K s live) (ha : K a = some kd) (hc : K c = some kd')
    (hne : c ≠ a) : c + 12 ≤ a ∨ a + pgSize * kd.pages ≤ c := by
  have hpos := (h.header hc).ok.pages_pos
  have hle : pgSize * 1 ≤ pgSize * kd'.pages := Nat.mul_le_mul_left _ hpos
  rcases h.apart ha hc with rfl | hlt
  · exact absurd rfl hne
  · unfold pgSize at *
    omega

/-- A state with the same lists and pages, and memory that agrees on the headers. -/
theorem InvK.of_mem {m : Nat → UInt8} (h : InvK K s live)
    (hm : ∀ {a kd}, K a = some kd → ∀ x, a ≤ x → x < a + 12 → m x = s.mem x) :
    InvK K { s with mem := m } live := by
  have hword : ∀ {a kd}, K a = some kd → ∀ o ≤ 8, wordAt m (a + o) = wordAt s.mem (a + o) :=
    fun ha o ho => wordAt_congr fun j hj => hm ha _ (by omega) (by omega)
  refine ⟨fun ha => ?_, fun ha => ?_, h.held, h.apart, h.free, h.nodup, h.used, h.liveNodup⟩
  · obtain ⟨h1, h2, h3, h4, h5⟩ := h.header ha
    exact ⟨h1, h2, h3, (hword ha 0 (by omega)).trans h4, (hword ha 4 (by omega)).trans h5⟩
  · exact (hword ha 8 (by omega)).trans (h.cnt ha)

/-- A write behind the header of an arena. -/
theorem InvK.patch {o : Nat} {f : Nat → UInt8} (h : InvK K s live) (ha : K a = some kd)
    (ho : a + arenaSize ≤ o) (hn : o + n ≤ a + pgSize * kd.pages) :
    InvK K { s with mem := patch s.mem o n f } live := by
  refine h.of_mem fun {c kd'} hc x h1 h2 => patch_of_outside ?_
  by_cases hca : c = a
  · subst hca
    unfold arenaSize at ho
    omega
  · have := h.header_apart ha hc hca
    unfold arenaSize at ho
    omega

/-- A block comes into use. -/
theorem InvK.use {size : Nat} (h : InvK K s live) (ha : K a = some kd) (hb : kd.IsBlock a b)
    (hfree : ∀ i, b ∉ s.freeList i) (hnew : ∀ p ∈ live, p.addr ≠ b)
    (hsize : size + arenaSize < 2 ^ 32 → size ≤ kd.len) :
    InvK K s (⟨b, size⟩ :: live) := by
  refine { h with used := ?_, liveNodup := ?_ }
  · intro p hp
    rcases mem_cons.mp hp with rfl | hp
    · exact ⟨a, kd, ha, hb, hfree, hsize⟩
    · exact h.used p hp
  · rw [map_cons, nodup_cons]
    refine ⟨fun hmem => ?_, h.liveNodup⟩
    obtain ⟨p, hp, he⟩ := mem_map.mp hmem
    exact hnew p hp he

/-- Blocks go out of use. -/
theorem InvK.sublive {live' : List Live} (h : InvK K s live) (hsub : live'.Sublist live) : InvK K s live' :=
  { h with used := fun p hp => h.used p (hsub.subset hp), liveNodup := h.liveNodup.sublist (hsub.map _) }

/-! ## Free lists -/

theorem mem_blocksOf_range :
    b ∈ blocksOf d a (range d.blocksPerArena) ↔ (Kind.small d i).IsBlock a b := by
  simp [blocksOf, Kind.IsBlock, eq_comm]

theorem nodup_blocksOf (h : descs[i]? = some d) (a n : Nat) :
    (blocksOf d a (range n)).Nodup := by
  have hpos := (desc_ok h).1
  refine nodup_range.map fun x y hxy => ?_
  exact Nat.eq_of_mul_eq_mul_right (by omega) (Nat.add_left_cancel hxy)

/-- Blocks of an arena without repetition: no more than it has, and all of
them if they are as many. -/
theorem blocks_count (hnd : l.Nodup)
    (hl : ∀ b ∈ l, (Kind.small d i).IsBlock a b) :
    l.length ≤ d.blocksPerArena ∧
      (d.blocksPerArena ≤ l.length → blocksOf d a (range d.blocksPerArena) ⊆ l) := by
  have hsub : l.Subperm (blocksOf d a (range d.blocksPerArena)) :=
    hnd.subperm fun b hb => mem_blocksOf_range.mpr (hl b hb)
  have hlen : (blocksOf d a (range d.blocksPerArena)).length = d.blocksPerArena := by simp [blocksOf]
  refine ⟨hlen ▸ hsub.length_le, fun hle => ?_⟩
  exact (hsub.perm_of_length_le (by rw [hlen]; exact hle)).symm.subset

theorem mem_inArena : b ∈ inArena a l ↔ b ∈ l ∧ pgRoundDown b = a := by
  simp [inArena]

/-- The free list of `descs[i]` and the count of one arena change together. -/
theorem InvK.edit {x : Nat} (h : InvK K s live) (ha : K a = some (.small d i))
    (hl : ∀ c ≠ a, inArena c l = inArena c (s.freeList i)) (hx : x = (inArena a l).length) (hx32 : x < 2 ^ 32)
    (hmem : ∀ b ∈ l, b ∈ s.freeList i ∨ (Kind.small d i).IsBlock a b) (hnd : l.Nodup)
    (hlive : ∀ p ∈ live, p.addr ∉ l) :
    InvK K { s.setList i l with mem := putWord s.mem (a + 8) x } live := by
  have hword : ∀ {c kd}, K c = some kd → ∀ o ≤ 8, c ≠ a ∨ o ≤ 4 →
      wordAt (putWord s.mem (a + 8) x) (c + o) = wordAt s.mem (c + o) := by
    intro c kd hc o ho hor
    refine wordAt_putWord_ne _ _ ?_
    by_cases hca : c = a
    · omega
    · have := h.header_apart ha hc hca
      simp only [Kind.pages, pgSize] at this
      omega
  refine ⟨fun {c kd} hc => ?_, fun {c kd} hc => ?_, h.held, h.apart, fun {j b} hb => ?_, fun j => ?_, fun p hp => ?_,
    h.liveNodup⟩
  · obtain ⟨h1, h2, h3, h4, h5⟩ := h.header hc
    exact ⟨h1, h2, h3, (hword hc 0 (by omega) (by omega)).trans h4, (hword hc 4 (by omega) (by omega)).trans h5⟩
  · by_cases hca : c = a
    · subst hca
      rw [ha] at hc
      cases hc
      refine (wordAt_putWord _ _ hx32).trans ?_
      simp only [Kind.cnt]
      rw [hx]
      exact congrArg (fun m => (inArena c m).length) (setList_self s i l).symm
    · refine (hword hc 8 (by omega) (.inl hca)).trans ((h.cnt hc).trans ?_)
      cases kd with
      | big n => rfl
      | small d' j =>
        simp only [Kind.cnt]
        by_cases hj : j = i
        · subst hj
          rw [← hl c hca]
          exact congrArg (fun m => (inArena c m).length) (setList_self s j l).symm
        · exact congrArg (fun m => (inArena c m).length) (setList_ne s hj l).symm
  · by_cases hj : j = i
    · subst hj
      have hb : b ∈ (s.setList j l).freeList j := hb
      rw [setList_self] at hb
      rcases hmem b hb with hb | hb
      · exact h.free hb
      · exact ⟨a, d, ha, hb⟩
    · have hb : b ∈ (s.setList i l).freeList j := hb
      rw [setList_ne s hj] at hb
      exact h.free hb
  · change ((s.setList i l).freeList j).Nodup
    by_cases hj : j = i
    · subst hj
      rwa [setList_self]
    · rw [setList_ne s hj]
      exact h.nodup j
  · obtain ⟨c, kd, hc, hb, hfree, hsize⟩ := h.used p hp
    refine ⟨c, kd, hc, hb, fun j => ?_, hsize⟩
    change p.addr ∉ (s.setList i l).freeList j
    by_cases hj : j = i
    · subst hj
      rw [setList_self]
      exact hlive p hp
    · rw [setList_ne s hj]
      exact hfree j

/-! ## Arenas come and go -/

theorem self_mem_pagesOf (hn : 1 ≤ n) : a ∈ pagesOf a n := mem_pagesOf.mpr ⟨0, hn, rfl⟩

/-- Page runs without a common page lie apart. -/
theorem apart_of_disjoint {m : Nat} (ha : pgOfs a = 0) (hc : pgOfs c = 0) (hn : 1 ≤ n) (hm : 1 ≤ m)
    (h : Disjoint (pagesOf a n) (pagesOf c m)) : c + pgSize * m ≤ a ∨ a + pgSize * n ≤ c := by
  by_contra hno
  rw [Finset.disjoint_left] at h
  unfold pgOfs at ha hc
  rcases Nat.le_total c a with hle | hle
  · refine h (self_mem_pagesOf hn) (mem_pagesOf.mpr ⟨(a - c) / pgSize, ?_, ?_⟩)
    all_goals
      unfold pgSize at *
      omega
  · refine h (mem_pagesOf.mpr ⟨(c - a) / pgSize, ?_, ?_⟩) (self_mem_pagesOf hm)
    all_goals
      unfold pgSize at *
      omega

theorem InvK.fresh_apart (h : InvK K s live) (ha : pgOfs a = 0) (hn : 1 ≤ n)
    (hdis : Disjoint (pagesOf a n) s.pages) (hc : K c = some kd') :
    c + pgSize * kd'.pages ≤ a ∨ a + pgSize * n ≤ c :=
  apart_of_disjoint ha (h.header hc).page hn (h.header hc).ok.pages_pos
    (hdis.mono_right (h.held hc))

/-- A new arena in fresh pages; its blocks are the whole free list of its
descriptor. -/
theorem InvK.add (h : InvK K s live) (hdr : Header s' a kd) (hcnt : s'.word (a + 8) = kd.cnt s' a)
    (hdis : Disjoint (pagesOf a kd.pages) s.pages) (hpages : s'.pages = s.pages ∪ pagesOf a kd.pages)
    (hmem : ∀ x, x < a ∨ a + 12 ≤ x → s'.mem x = s.mem x)
    (hfree : ∀ j, s'.freeList j = s.freeList j ∨
      s.freeList j = [] ∧ ∃ d, kd = .small d j ∧ s'.freeList j = blocksOf d a (range d.blocksPerArena)) :
    InvK (update K a (some kd)) s' live := by
  have hpos := hdr.ok.pages_pos
  have hapart : ∀ {c kd'}, K c = some kd' → c + pgSize * kd'.pages ≤ a ∨ a + pgSize * kd.pages ≤ c :=
    h.fresh_apart hdr.page hpos hdis
  have hpg : 12 ≤ pgSize * kd.pages := by
    have := Nat.mul_le_mul_left pgSize hpos
    unfold pgSize at *
    omega
  have hne : ∀ {c kd'}, K c = some kd' → c ≠ a := by
    rintro c kd' hc rfl
    have := hapart hc
    have := Nat.mul_le_mul_left pgSize (h.header hc).ok.pages_pos
    unfold pgSize at *
    omega
  have hold : ∀ {c kd'}, update K a (some kd) c = some kd' → (c = a ∧ kd' = kd) ∨ K c = some kd' := by
    intro c kd' hc
    by_cases hca : c = a
    · subst hca
      rw [update_self] at hc
      exact .inl ⟨rfl, (Option.some.inj hc).symm⟩
    · rw [update_of_ne hca] at hc
      exact .inr hc
  have hnew : ∀ {c kd'}, K c = some kd' → update K a (some kd) c = some kd' := fun hc => by
    rw [update_of_ne (hne hc), hc]
  have hword : ∀ {c kd'}, K c = some kd' → ∀ o ≤ 8, s'.word (c + o) = s.word (c + o) := by
    intro c kd' hc o ho
    refine wordAt_congr fun j hj => hmem _ ?_
    have := hapart hc
    have := Nat.mul_le_mul_left pgSize (h.header hc).ok.pages_pos
    unfold pgSize at *
    omega
  -- a block of the new arena is in no old arena
  have hblock : ∀ {j b}, b ∈ s'.freeList j → b ∈ s.freeList j ∨
      pgRoundDown b = a ∧ ∃ d, kd = .small d j ∧ (Kind.small d j).IsBlock a b := by
    intro j b hb
    rcases hfree j with he | ⟨-, d, hkd, he⟩
    · exact .inl (he ▸ hb)
    · rw [he] at hb
      have hblk : (Kind.small d j).IsBlock a b := mem_blocksOf_range.mp hb
      exact .inr ⟨hblk.round (hkd ▸ hdr.ok) hdr.page, d, hkd, hblk⟩
  refine ⟨fun {c kd'} hc => ?_, fun {c kd'} hc => ?_, fun {c kd'} hc => ?_, fun {c kd' e kd''} hc he => ?_,
    fun {j b} hb => ?_, fun j => ?_, fun p hp => ?_, h.liveNodup⟩
  · rcases hold hc with ⟨rfl, rfl⟩ | hc
    · exact hdr
    · obtain ⟨h1, h2, h3, h4, h5⟩ := h.header hc
      exact ⟨h1, h2, h3, (hword hc 0 (by omega)).trans h4, (hword hc 4 (by omega)).trans h5⟩
  · rcases hold hc with ⟨rfl, rfl⟩ | hc
    · exact hcnt
    · rw [hword hc 8 (by omega), h.cnt hc]
      cases kd' with
      | big n => rfl
      | small d' j =>
        simp only [Kind.cnt]
        rcases hfree j with he | ⟨hnil, d, hkd, he⟩
        · rw [he]
        · have hout : inArena c (s'.freeList j) = [] := by
            refine filter_eq_nil_iff.mpr fun b hb hcb => ?_
            rcases hblock hb with hb | ⟨hr, -⟩
            · rw [hnil] at hb
              cases hb
            · exact hne hc ((of_decide_eq_true hcb).symm.trans hr)
          rw [hout, hnil]
          rfl
  · rw [hpages]
    rcases hold hc with ⟨rfl, rfl⟩ | hc
    · exact Finset.subset_union_right
    · exact (h.held hc).trans Finset.subset_union_left
  · rcases hold hc with ⟨rfl, rfl⟩ | hc' <;> rcases hold he with ⟨rfl, rfl⟩ | he'
    · exact .inl rfl
    · exact .inr (hapart he').symm
    · exact .inr (hapart hc')
    · exact h.apart hc' he'
  · rcases hblock hb with hb | ⟨-, d, rfl, hblk⟩
    · obtain ⟨c, d, hc, hblk⟩ := h.free hb
      exact ⟨c, d, hnew hc, hblk⟩
    · exact ⟨a, d, update_self .., hblk⟩
  · rcases hfree j with he | ⟨-, d, rfl, he⟩
    · exact he ▸ h.nodup j
    · exact he ▸ nodup_blocksOf hdr.ok a _
  · obtain ⟨c, kd', hc, hblk, hnot, hsize⟩ := h.used p hp
    refine ⟨c, kd', hnew hc, hblk, fun j hj => ?_, hsize⟩
    rcases hblock hj with hj | ⟨hr, -⟩
    · exact hnot j hj
    · exact hne hc ((h.round hc hblk).symm.trans hr)

/-- An arena without blocks in use is taken off the map, its blocks off the
free lists. -/
theorem InvK.forget (h : InvK K s live) (a : Nat) (hmem : s'.mem = s.mem) (hpages : s'.pages = s.pages)
    (hfree : ∀ j, s'.freeList j = (s.freeList j).filter fun b => pgRoundDown b ≠ a)
    (hlive : ∀ p ∈ live, pgRoundDown p.addr ≠ a) : InvK (update K a none) s' live := by
  have hold : ∀ {c kd}, update K a none c = some kd → c ≠ a ∧ K c = some kd := by
    intro c kd hc
    by_cases hca : c = a
    · subst hca
      rw [update_self] at hc
      cases hc
    · rw [update_of_ne hca] at hc
      exact ⟨hca, hc⟩
  have hnew : ∀ {c kd}, c ≠ a → K c = some kd → update K a none c = some kd := fun hca hc => by
    rw [update_of_ne hca, hc]
  have hword : ∀ x, s'.word x = s.word x := fun x => by rw [St.word, St.word, hmem]
  refine ⟨fun hc => ?_, fun {c kd} hc => ?_, fun hc => ?_, fun hc he => ?_, fun {j b} hb => ?_, fun j => ?_,
    fun p hp => ?_, h.liveNodup⟩
  · obtain ⟨h1, h2, h3, h4, h5⟩ := h.header (hold hc).2
    exact ⟨h1, h2, h3, (hword _).trans h4, (hword _).trans h5⟩
  · obtain ⟨hca, hc⟩ := hold hc
    rw [hword, h.cnt hc]
    cases kd with
    | big n => rfl
    | small d j =>
      simp only [Kind.cnt, inArena]
      rw [hfree, filter_filter]
      congr 1
      refine filter_congr fun b _ => ?_
      by_cases hb : pgRoundDown b = c <;> simp [hb, hca]
  · exact hpages ▸ h.held (hold hc).2
  · exact h.apart (hold hc).2 (hold he).2
  · rw [hfree, mem_filter] at hb
    obtain ⟨c, d, hc, hblk⟩ := h.free hb.1
    exact ⟨c, d, hnew (fun hca => of_decide_eq_true hb.2 (hca ▸ h.round hc hblk)) hc, hblk⟩
  · rw [hfree]
    exact (h.nodup j).filter _
  · obtain ⟨c, kd, hc, hblk, hnot, hsize⟩ := h.used p hp
    refine ⟨c, kd, hnew (fun hca => hlive p hp (hca ▸ h.round hc hblk)) hc, hblk, fun j hj => ?_, hsize⟩
    rw [hfree, mem_filter] at hj
    exact hnot j hj.1

/-- Pages that hold no arena are given back. -/
theorem InvK.giveBack {f : Nat → UInt8} (h : InvK K s live)
    (hapart : ∀ {c kd'}, K c = some kd' → Disjoint (pagesOf c kd'.pages) (pagesOf a n) ∧
      (c + 12 ≤ a ∨ a + pgSize * n ≤ c)) :
    InvK K { s with mem := Core.patch s.mem a (pgSize * n) f, pages := s.pages \ pagesOf a n } live := by
  have hpatch := h.of_mem (m := Core.patch s.mem a (pgSize * n) f) fun {c kd'} hc x h1 h2 =>
    patch_of_outside (by have := (hapart hc).2; omega)
  refine { hpatch with held := fun {c kd'} hc => ?_, header := fun hc => ?_, cnt := fun {c kd'} hc => ?_ }
  · obtain ⟨h1, h2, h3, h4, h5⟩ := hpatch.header hc
    exact ⟨h1, h2, h3, h4, h5⟩
  · refine (hpatch.cnt hc).trans ?_
    cases kd' <;> rfl
  · exact Finset.subset_sdiff.mpr ⟨h.held hc, (hapart hc).1⟩

end

end Pintos.Malloc
