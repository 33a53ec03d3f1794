import Pintos.L3Proof.HeapInv

/-!
# The kernel heap

Each of `malloc`, `calloc`, `realloc` and `free` keeps the invariant and
returns, from the edits of `HeapInv`. What the page allocator answers and what
callers store in their blocks is arbitrary.

* `kernel_heap`: in every run in which `calloc` and `realloc` get no size that
  wraps around, blocks in use are disjoint and inside their arenas, counts and
  free lists agree, and the next call returns.
* `realloc_overruns`: `realloc` of a block of two pages to 0xfffffff8 bytes
  gets one page, copies two, and the next `free` of a block behind it stops
  at the assertion on the magic number.
-/
namespace Pintos.Malloc

open Pintos.Core Pintos.Vm Function List
open Pintos.Palloc (pagesOf mem_pagesOf)

variable {K : Nat → Option Kind} {s s' : St} {live : List Live} {a b : Nat} {kd : Kind}

/-! ## Pages -/

theorem ok_pallocGetMultiple (s : St) (grant : Option Nat) (n : Nat) :
    Ok (pallocGetMultiple grant n) s fun r s' =>
      (r = none ∧ s' = s) ∨
        ∃ a, r = some a ∧ a ≠ 0 ∧ pgOfs a = 0 ∧ 1 ≤ n ∧ Disjoint (pagesOf a n) s.pages ∧
          s' = { s with pages := s.pages ∪ pagesOf a n } := by
  unfold pallocGetMultiple
  split
  · exact (ok_pure _).mpr (.inl ⟨rfl, rfl⟩)
  next hn =>
    cases grant with
    | none => exact (ok_pure _).mpr (.inl ⟨rfl, rfl⟩)
    | some a =>
      refine ok_bind.mpr (ok_get.mpr ?_)
      split
      next h =>
        refine ok_bind.mpr ((ok_modify _).mpr ((ok_pure _).mpr (.inr ⟨a, rfl, h.1, h.2.1, ?_, h.2.2, rfl⟩)))
        omega
      · exact (ok_pure _).mpr (.inl ⟨rfl, rfl⟩)

variable {c n x y size i : Nat} {d : Desc} {p : Live}

theorem disjoint_of_apart {m : Nat} (h : c + pgSize * m ≤ a ∨ a + pgSize * n ≤ c) :
    Disjoint (pagesOf c m) (pagesOf a n) := by
  refine Finset.disjoint_left.mpr fun x hx hy => ?_
  obtain ⟨i, hi, rfl⟩ := mem_pagesOf.mp hx
  obtain ⟨j, hj, he⟩ := mem_pagesOf.mp hy
  unfold pgSize at *
  omega

/-- An arena that is off the map is given back to the page allocator. -/
theorem InvK.ok_pallocFree (h : InvK K s live) (ha : K a = some kd)
    (h' : InvK (update K a none) s' live) (hpages : s'.pages = s.pages) (hn : kd.pages = n) :
    Ok (pallocFreeMultiple a n) s' fun _ s'' => Inv s'' live := by
  subst hn
  have hback := h'.giveBack (a := a) (n := kd.pages) (f := fun _ => 0xcc) fun {c kd'} hc => by
    have hca : c ≠ a := by
      rintro rfl
      rw [update_self] at hc
      cases hc
    rw [update_of_ne hca] at hc
    exact ⟨disjoint_of_apart ((h.apart hc ha).resolve_left hca), h.header_apart ha hc hca⟩
  unfold pallocFreeMultiple
  refine ok_bind.mpr (ok_get.mpr ?_)
  rw [if_pos (hpages ▸ h.held ha)]
  exact ok_bind.mpr ((ok_modify _).mpr ((ok_modify _).mpr ⟨_, hback⟩))

/-! ## malloc -/

/-- The memory after the three words of a header are written. -/
def headed (m : Nat → UInt8) (a x y z : Nat) : Nat → UInt8 := putWord (putWord (putWord m a x) (a + 4) y) (a + 8) z

theorem headed_outside {m : Nat → UInt8} {z o : Nat} (h : o < a ∨ a + 12 ≤ o) : headed m a x y z o = m o := by
  unfold headed putWord
  rw [patch_of_outside (by omega), patch_of_outside (by omega), patch_of_outside (by omega)]

theorem headed_words {m : Nat → UInt8} {z : Nat} (hx : x < 2 ^ 32) (hy : y < 2 ^ 32) (hz : z < 2 ^ 32) :
    wordAt (headed m a x y z) a = x ∧ wordAt (headed m a x y z) (a + 4) = y ∧
      wordAt (headed m a x y z) (a + 8) = z := by
  unfold headed
  refine ⟨?_, ?_, wordAt_putWord _ _ hz⟩
  · rw [wordAt_putWord_ne _ _ (by omega), wordAt_putWord_ne _ _ (by omega), wordAt_putWord _ _ hx]
  · rw [wordAt_putWord_ne _ _ (by omega), wordAt_putWord _ _ hy]

theorem arenaMagic_lt : arenaMagic < 2 ^ 32 := by decide

/-- A big block is as long as was asked, unless the sum with the header wraps. -/
theorem pageCntOf_long (h : size + arenaSize < 2 ^ 32) (hn : 1 ≤ pageCntOf size) :
    size ≤ pgSize * pageCntOf size - arenaSize := by
  unfold pageCntOf at *
  rw [Nat.mod_eq_of_lt h] at *
  unfold pgSize arenaSize at *
  omega

theorem pageCntOf_lt (size : Nat) : pageCntOf size < 2 ^ 20 := by
  unfold pageCntOf pgSize
  omega

theorem InvK.ok_mallocBig (h : InvK K s live) (size : Nat) (grant : Option Nat) :
    Ok (mallocBig size grant) s fun r s' =>
      (r = none ∧ s' = s) ∨ ∃ p, r = some p ∧ Inv s' (⟨p, size⟩ :: live) := by
  unfold mallocBig
  refine ok_bind.mpr ((ok_pallocGetMultiple s grant (pageCntOf size)).mono ?_)
  rintro r s₁ (⟨rfl, rfl⟩ | ⟨a, rfl, hne, hpg, hn, hdis, rfl⟩)
  · exact (ok_pure _).mpr (.inl ⟨rfl, rfl⟩)
  · refine ok_bind.mpr ((ok_modify _).mpr (ok_bind.mpr ((ok_modify _).mpr (ok_bind.mpr ((ok_modify _).mpr
      ((ok_pure _).mpr (.inr ⟨_, rfl, update K a (some (.big (pageCntOf size))), ?_⟩)))))))
    have hlt := pageCntOf_lt size
    obtain ⟨hw, hw4, hw8⟩ := headed_words (m := s.mem) (a := a) arenaMagic_lt (show 0 < 2 ^ 32 by decide)
      (show pageCntOf size < 2 ^ 32 by omega)
    have hadd : InvK (update K a (some (.big (pageCntOf size))))
        { s with pages := s.pages ∪ pagesOf a (pageCntOf size),
                 mem := headed s.mem a arenaMagic 0 (pageCntOf size) } live :=
      h.add ⟨hne, hpg, ⟨hn, hlt⟩, hw, hw4⟩ hw8 hdis rfl (fun x hx => headed_outside hx) fun j => .inl rfl
    have hround : pgRoundDown (a + arenaSize) = a :=
      (show (Kind.big (pageCntOf size)).IsBlock a (a + arenaSize) from rfl).round ⟨hn, hlt⟩ hpg
    -- no old arena is at `a`
    have hfresh : ∀ {c kd' b'}, K c = some kd' → kd'.IsBlock c b' → b' ≠ a + arenaSize := by
      rintro c kd' b' hc hb rfl
      have hca : a = c := hround.symm.trans (h.round hc hb)
      subst hca
      exact Finset.disjoint_left.mp hdis (self_mem_pagesOf hn) (h.held hc (self_mem_pagesOf (h.header hc).ok.pages_pos))
    refine hadd.use (update_self ..) rfl (fun i hi => ?_) (fun p hp => ?_) fun hsz => pageCntOf_long hsz hn
    · obtain ⟨c, d, hc, hb⟩ := h.free hi
      exact hfresh hc hb rfl
    · obtain ⟨c, kd', hc, hb, -⟩ := h.used p hp
      exact hfresh hc hb

theorem bpa_lt (h : descs[i]? = some d) : d.blocksPerArena < 2 ^ 32 := by
  obtain ⟨h16, -, hfit, -⟩ := desc_ok h
  have : d.blocksPerArena * 1 ≤ d.blocksPerArena * d.blockSize := Nat.mul_le_mul_left _ (by omega)
  unfold pgSize at hfit
  omega

theorem inArena_blocksOf (hok : (Kind.small d i).Ok) (ha : pgOfs a = 0) :
    inArena a (blocksOf d a (range d.blocksPerArena)) = blocksOf d a (range d.blocksPerArena) := by
  refine filter_eq_self.mpr fun b hb => decide_eq_true ?_
  exact Kind.IsBlock.round (mem_blocksOf_range (i := i).mp hb) hok ha

theorem InvK.ok_newArena (h : InvK K s live) (hd : descs[i]? = some d) (hl : s.freeList i = [])
    (grant : Option Nat) :
    Ok (newArena d i grant) s fun r s' =>
      (r = false ∧ s' = s) ∨ (r = true ∧ s'.freeList i ≠ [] ∧ Inv s' live) := by
  unfold newArena
  refine ok_bind.mpr ((ok_pallocGetMultiple s grant 1).mono ?_)
  rintro r s₁ (⟨rfl, rfl⟩ | ⟨a, rfl, hne, hpg, -, hdis, rfl⟩)
  · exact (ok_pure _).mpr (.inl ⟨rfl, rfl⟩)
  · obtain ⟨-, hpos, -, hi⟩ := desc_ok hd
    obtain ⟨hw, hw4, hw8⟩ := headed_words (m := s.mem) (a := a) arenaMagic_lt (show i + 1 < 2 ^ 32 by omega)
      (bpa_lt hd)
    let s₂ : St := { s with pages := s.pages ∪ pagesOf a 1,
                            mem := headed s.mem a arenaMagic (i + 1) d.blocksPerArena }
    have hdr : Header s₂ a (.small d i) := ⟨hne, hpg, hd, hw, hw4⟩
    have hblocks := addBlocks_eq (range d.blocksPerArena) hdr fun idx hidx => mem_range.mp hidx
    have hnil : s₂.freeList i = [] := hl
    rw [hnil, nil_append] at hblocks
    refine ok_bind.mpr ((ok_modify _).mpr (ok_bind.mpr ((ok_modify _).mpr (ok_bind.mpr ((ok_modify _).mpr
      (ok_bind.mpr ⟨_, _, hblocks, (ok_pure _).mpr (.inr ⟨rfl, ?_, update K a (some (.small d i)), ?_⟩)⟩))))))
    · rw [setList_self]
      intro hnil
      have hlen := congrArg length hnil
      simp only [blocksOf, length_map, length_range, length_nil] at hlen
      omega
    · refine h.add (hdr.setList i _) ?_ hdis rfl (fun x hx => headed_outside hx) fun j => ?_
      · refine hw8.trans ?_
        rw [Kind.cnt, setList_self, inArena_blocksOf (i := i) hd hpg]
        simp [blocksOf]
      · by_cases hj : j = i
        · subst hj
          exact .inr ⟨hl, d, rfl, setList_self ..⟩
        · exact .inl (setList_ne s₂ hj _)

theorem sub32_succ (h : n < 2 ^ 32) : sub32 (n + 1) 1 = n := by
  unfold sub32
  omega

theorem inArena_cons_self {l : List Nat} (h : pgRoundDown b = a) : inArena a (b :: l) = b :: inArena a l := by
  simp [inArena, h]

theorem inArena_cons_ne {l : List Nat} (h : pgRoundDown b ≠ c) : inArena c (b :: l) = inArena c l := by
  simp [inArena, h]

/-- The blocks of an arena on its free list are blocks of it. -/
theorem InvK.isBlock_of_inArena (h : InvK K s live) (ha : K a = some (.small d i))
    (hb : b ∈ inArena a (s.freeList i)) : (Kind.small d i).IsBlock a b := by
  obtain ⟨hb, hr⟩ := mem_inArena.mp hb
  obtain ⟨c, d', hc, hblk⟩ := h.free hb
  obtain rfl : c = a := (h.round hc hblk).symm.trans hr
  rw [ha] at hc
  cases hc
  exact hblk

theorem InvK.ok_takeBlock (h : InvK K s live) (hd : descs[i]? = some d)
    (hl : s.freeList i ≠ []) (hsize : size ≤ d.blockSize) :
    Ok (takeBlock i) s fun b s' => InvK K s' (⟨b, size⟩ :: live) := by
  obtain ⟨b, rest, hlist⟩ := exists_cons_of_ne_nil hl
  have hb : b ∈ s.freeList i := hlist ▸ mem_cons_self
  obtain ⟨a, d', ha, hblk⟩ := h.free hb
  obtain rfl : d = d' := Option.some.inj (hd.symm.trans (h.header ha).ok)
  have hround := h.round ha hblk
  obtain ⟨hnot, hnd⟩ := nodup_cons.mp (hlist ▸ h.nodup i)
  have hcount : s.word (a + 8) = (inArena a rest).length + 1 := by
    rw [h.cnt ha, Kind.cnt, hlist, inArena_cons_self hround, length_cons]
  have hlt : (inArena a rest).length < 2 ^ 32 := by
    have hle := (blocks_count ((h.nodup i).filter _) fun b hb => h.isBlock_of_inArena ha hb).1
    have hall : (inArena a (s.freeList i)).length = (inArena a rest).length + 1 := by
      rw [hlist, inArena_cons_self hround, length_cons]
    have := bpa_lt hd
    unfold inArena at hall ⊢
    omega
  have hedit := h.edit (l := rest) (x := sub32 (s.word (a + 8)) 1) ha
    (fun c hc => by rw [hlist, inArena_cons_ne (by rw [hround]; exact hc.symm)])
    (by rw [hcount, sub32_succ hlt]) (by rw [hcount, sub32_succ hlt]; exact hlt)
    (fun b hb => .inl (hlist ▸ mem_cons_of_mem _ hb)) hnd
    (fun p hp hmem => by
      obtain ⟨_, _, _, _, hfree, _⟩ := h.used p hp
      exact hfree i (hlist ▸ mem_cons_of_mem _ hmem))
  unfold takeBlock
  refine ok_bind.mpr (ok_get.mpr ?_)
  rw [hlist]
  refine ok_bind.mpr ((ok_modify _).mpr (ok_bind.mpr ⟨_, _, blockToArena_eq ((h.header ha).setList i rest) hblk, ?_⟩))
  refine ok_bind.mpr ⟨_, _, getWord_eq _ _, ok_bind.mpr ((ok_modify _).mpr ((ok_pure _).mpr ?_))⟩
  refine hedit.use ha hblk (fun j hj => ?_) (fun p hp hpb => ?_) fun _ => hsize
  · have hj : b ∈ (s.setList i rest).freeList j := hj
    by_cases hji : j = i
    · subst hji
      rw [setList_self] at hj
      exact hnot hj
    · rw [setList_ne s hji] at hj
      obtain ⟨c, d', hc, hblk'⟩ := h.free hj
      have := (h.unique ha hblk hc hblk').2
      cases this
      exact hji rfl
  · obtain ⟨_, _, _, _, hfree, _⟩ := h.used p hp
    exact hfree i (hpb ▸ hb)

theorem findDesc_some (h : findDesc size = some (d, i)) :
    descs[i]? = some d ∧ size ≤ d.blockSize := by
  have hsize := find?_some h
  exact ⟨mem_zipIdx_iff_getElem?.mp (mem_of_find?_eq_some h), of_decide_eq_true hsize⟩

theorem InvK.ok_refill (h : InvK K s live) (hd : descs[i]? = some d) (grant : Option Nat) :
    Ok (refill d i grant) s fun r s' =>
      (r = false ∧ s' = s) ∨ (r = true ∧ s'.freeList i ≠ [] ∧ Inv s' live) := by
  unfold refill
  refine ok_bind.mpr (ok_get.mpr ?_)
  split
  next hl => exact h.ok_newArena hd hl grant
  next hl => exact (ok_pure _).mpr (.inr ⟨rfl, hl, K, h⟩)

theorem Inv.ok_malloc (h : Inv s live) (size : Nat) (grant : Option Nat) :
    Ok (malloc size grant) s fun r s' =>
      (r = none ∧ s' = s) ∨ ∃ p, r = some p ∧ Inv s' (⟨p, size⟩ :: live) := by
  obtain ⟨K, h⟩ := h
  unfold malloc
  split
  · exact (ok_pure _).mpr (.inl ⟨rfl, rfl⟩)
  · split
    · exact h.ok_mallocBig size grant
    next d i hfind =>
      obtain ⟨hd, hsize⟩ := findDesc_some hfind
      refine ok_bind.mpr ((h.ok_refill hd grant).mono ?_)
      rintro r s' (⟨rfl, rfl⟩ | ⟨rfl, hl, K', h'⟩)
      · exact (ok_pure _).mpr (.inl ⟨rfl, rfl⟩)
      · refine ok_bind.mpr ((h'.ok_takeBlock hd hl hsize).mono fun b s'' hinv => ?_)
        exact (ok_pure _).mpr (.inr ⟨b, rfl, K', hinv⟩)

/-! ## free -/

/-- The blocks in use without the one at `b`. -/
def without (live : List Live) (b : Nat) : List Live := live.filter fun p => p.addr ≠ b

theorem mem_without : p ∈ without live b ↔ p ∈ live ∧ p.addr ≠ b := by
  simp [without]

/-- A write inside a block. -/
theorem InvK.patch_block {o : Nat} {f : Nat → UInt8} (h : InvK K s live) (ha : K a = some kd)
    (hb : kd.IsBlock a b) (ho : b ≤ o) (hn : o + n ≤ b + kd.len) :
    InvK K { s with mem := Core.patch s.mem o n f } live := by
  obtain ⟨h1, h2, -⟩ := hb.bounds (h.header ha).ok
  exact h.patch ha (h1.trans ho) (hn.trans h2)

/-- A block in use goes to the front of its free list, and is counted. -/
theorem InvK.put (h : InvK K s live) (ha : K a = some (.small d i))
    (hb : (Kind.small d i).IsBlock a b) (hnot : b ∉ s.freeList i) :
    InvK K { s.setList i (b :: s.freeList i) with
      mem := putWord s.mem (a + 8) (add32 (s.word (a + 8)) 1) } (without live b) ∧
    add32 (s.word (a + 8)) 1 = (inArena a (b :: s.freeList i)).length ∧
    (inArena a (b :: s.freeList i)).length ≤ d.blocksPerArena := by
  have hround := h.round ha hb
  have hnd : (b :: s.freeList i).Nodup := nodup_cons.mpr ⟨hnot, h.nodup i⟩
  have hblocks : ∀ c ∈ inArena a (b :: s.freeList i), (Kind.small d i).IsBlock a c := by
    intro c hc
    rw [inArena_cons_self hround] at hc
    rcases mem_cons.mp hc with rfl | hc
    · exact hb
    · exact h.isBlock_of_inArena ha hc
  have hle := (blocks_count (hnd.filter _) hblocks).1
  have hcount : add32 (s.word (a + 8)) 1 = (inArena a (b :: s.freeList i)).length := by
    have hlt := bpa_lt (h.header ha).ok
    have hlen : (inArena a (b :: s.freeList i)).length = (inArena a (s.freeList i)).length + 1 := by
      rw [inArena_cons_self hround, length_cons]
    rw [add32, h.cnt ha, Kind.cnt, ← hlen]
    exact Nat.mod_eq_of_lt (hle.trans_lt hlt)
  refine ⟨?_, hcount, hle⟩
  refine (h.sublive filter_sublist).edit ha ?_ hcount (Nat.mod_lt _ (by decide)) ?_ hnd ?_
  · exact fun c hc => inArena_cons_ne (by rw [hround]; exact hc.symm)
  · intro c hc
    rcases mem_cons.mp hc with rfl | hc
    · exact .inr hb
    · exact .inl hc
  · intro p hp hmem
    obtain ⟨hp, hne⟩ := mem_without.mp hp
    obtain ⟨_, _, _, _, hfree, _⟩ := h.used p hp
    exact (mem_cons.mp hmem).elim hne (hfree i)

/-- When all blocks of an arena are free, unlinking them leaves the blocks of
other arenas. -/
theorem InvK.diff_eq_filter (h : InvK K s live) (ha : K a = some (.small d i)) (j : Nat) :
    (s.setList i ((s.freeList i).diff (blocksOf d a (range d.blocksPerArena)))).freeList j =
      (s.freeList j).filter fun b => pgRoundDown b ≠ a := by
  by_cases hj : j = i
  · subst hj
    rw [setList_self, (h.nodup j).sdiff_eq_filter]
    refine filter_congr fun b hb => ?_
    have hiff : b ∈ blocksOf d a (range d.blocksPerArena) ↔ pgRoundDown b = a :=
      ⟨fun hm => h.round ha (mem_blocksOf_range.mp hm),
        fun hr => mem_blocksOf_range.mpr (h.isBlock_of_inArena ha (mem_inArena.mpr ⟨hb, hr⟩))⟩
    simp [hiff]
  · -- a free list of another descriptor has no block of this arena
    rw [setList_ne s hj]
    refine (filter_eq_self.mpr fun b hb => ?_).symm
    rw [decide_eq_true_eq]
    refine fun hr => hj ?_
    obtain ⟨c, d', hc, hblk⟩ := h.free hb
    obtain rfl : c = a := (h.round hc hblk).symm.trans hr
    rw [ha] at hc
    cases hc
    rfl

theorem InvK.ok_freeBlock (h : InvK K s live) (ha : K a = some (.small d i))
    (hb : (Kind.small d i).IsBlock a b) (hnot : b ∉ s.freeList i) :
    Ok (freeBlock d i a b) s fun _ s' => Inv s' (without live b) := by
  have hclear := h.patch_block (f := fun _ => 0xcc) ha hb (Nat.le_refl b) (Nat.le_refl _)
  obtain ⟨hput, hcount, hle⟩ := hclear.put ha hb hnot
  unfold freeBlock
  refine ok_bind.mpr ((ok_modify _).mpr (ok_bind.mpr ((ok_modify _).mpr
    (ok_bind.mpr ⟨_, _, getWord_setList _ _ _ _, ok_bind.mpr ((ok_modify _).mpr ?_)⟩))))
  split
  next hfull =>
    have heq := hfull.trans_eq hcount
    have hblocks : ∀ c ∈ inArena a (b :: s.freeList i), (Kind.small d i).IsBlock a c := fun c hc =>
      hput.isBlock_of_inArena ha (by rw [setList_self]; exact hc)
    have hnd : (b :: s.freeList i).Nodup := nodup_cons.mpr ⟨hnot, h.nodup i⟩
    -- all blocks of the arena are on the list
    have hall : blocksOf d a (range d.blocksPerArena) ⊆ b :: s.freeList i :=
      Subset.trans ((blocks_count (hnd.filter _) hblocks).2 heq) filter_sublist.subset
    refine ok_bind.mpr ⟨_, _, require_eq (hcount.trans (hle.antisymm heq)) _, ok_bind.mpr ⟨_, _, removeBlocks_eq _
      (hput.header ha) (fun idx hidx => mem_range.mp hidx) (nodup_blocksOf (h.header ha).ok a _) ?_, ?_⟩⟩
    · rw [setList_self]
      exact hall
    · refine hput.ok_pallocFree ha (hput.forget a rfl rfl (hput.diff_eq_filter ha) fun p hp hr => ?_) rfl rfl
      obtain ⟨c, kd, hc, hblk, hfree, -⟩ := hput.used p hp
      obtain rfl : c = a := (hput.round hc hblk).symm.trans hr
      rw [ha] at hc
      cases hc
      refine hfree i ?_
      rw [setList_self]
      exact hall (mem_blocksOf_range.mpr hblk)
  next => exact (ok_pure _).mpr ⟨K, hput⟩

theorem Inv.ok_free (h : Inv s live) (hp : p ∈ live) :
    Ok (free (some p.addr)) s fun _ s' => Inv s' (without live p.addr) := by
  obtain ⟨K, h⟩ := h
  obtain ⟨a, kd, ha, hblk, hfree, -⟩ := h.used p hp
  unfold free
  refine ok_bind.mpr ⟨_, _, blockToArena_eq (h.header ha) hblk, ok_bind.mpr ⟨_, _, arenaDesc_eq (h.header ha), ?_⟩⟩
  cases kd with
  | small d i => exact h.ok_freeBlock ha hblk (hfree i)
  | big n =>
    refine ok_bind.mpr ⟨_, _, getWord_eq _ _, ?_⟩
    rw [h.cnt ha, Kind.cnt]
    have hlive : ∀ q ∈ without live p.addr, pgRoundDown q.addr ≠ a := by
      intro q hq hr
      obtain ⟨hq, hne⟩ := mem_without.mp hq
      obtain ⟨c, kd, hc, hblk', -, -⟩ := h.used q hq
      obtain rfl : c = a := (h.round hc hblk').symm.trans hr
      rw [ha] at hc
      cases hc
      exact hne (Eq.trans hblk' (Eq.symm hblk))
    have hno : ∀ j, s.freeList j = (s.freeList j).filter fun b => pgRoundDown b ≠ a := by
      intro j
      refine (filter_eq_self.mpr fun b hb => ?_).symm
      rw [decide_eq_true_eq]
      intro hr
      obtain ⟨c, d', hc, hblk'⟩ := h.free hb
      obtain rfl : c = a := (h.round hc hblk').symm.trans hr
      rw [ha] at hc
      cases hc
    have hsub := h.sublive (filter_sublist (p := fun q => decide (q.addr ≠ p.addr)))
    exact hsub.ok_pallocFree ha (hsub.forget a rfl rfl hno hlive) rfl rfl

/-! ## realloc and calloc -/

theorem InvK.blockSize_eq (h : InvK K s live) (ha : K a = some kd) (hb : kd.IsBlock a b) :
    blockSize b s = .ok (kd.len, s) := by
  suffices hOk : Ok (blockSize b) s fun r s' => r = kd.len ∧ s' = s by
    obtain ⟨r, s', he, rfl, rfl⟩ := hOk
    exact he
  have hdr := h.header ha
  unfold blockSize
  refine ok_bind.mpr ⟨_, _, blockToArena_eq hdr hb, ok_bind.mpr ⟨_, _, arenaDesc_eq hdr, ?_⟩⟩
  cases kd with
  | small d i => exact (ok_pure _).mpr ⟨rfl, rfl⟩
  | big n =>
    refine ok_bind.mpr ⟨_, _, getWord_eq _ _, (ok_pure _).mpr ⟨?_, rfl⟩⟩
    obtain ⟨hn, hlt⟩ := hdr.ok
    have hofs : pgOfs b = arenaSize := by
      obtain rfl : b = a + arenaSize := hb
      have hpage := hdr.page
      unfold pgOfs pgSize arenaSize at *
      omega
    rw [h.cnt ha, hofs]
    simp only [Kind.cnt, Kind.len, sub32, pgSize, arenaSize]
    omega

/-- A write into a block in use, at most as long as was asked. -/
theorem Inv.patch_live {f : Nat → UInt8} (h : Inv s live) (hp : p ∈ live)
    (hsize : p.size + arenaSize < 2 ^ 32) (hn : n ≤ p.size) :
    Inv { s with mem := Core.patch s.mem p.addr n f } live := by
  obtain ⟨K, h⟩ := h
  obtain ⟨a, kd, ha, hb, -, hlen⟩ := h.used p hp
  exact ⟨K, h.patch_block ha hb (Nat.le_refl _) (Nat.add_le_add_left (hn.trans (hlen hsize)) _)⟩

theorem Inv.ok_calloc (h : Inv s live) (hfit : x * y + arenaSize < 2 ^ 32) (grant : Option Nat) :
    Ok (calloc x y grant) s fun r s' =>
      (r = none ∧ s' = s) ∨ ∃ p, r = some p ∧ Inv s' (⟨p, x * y⟩ :: live) := by
  have hmod : x * y % 2 ^ 32 = x * y := Nat.mod_eq_of_lt (by omega)
  unfold calloc
  dsimp only
  rw [hmod]
  split
  · exact (ok_pure _).mpr (.inl ⟨rfl, rfl⟩)
  · refine ok_bind.mpr ((h.ok_malloc (x * y) grant).mono ?_)
    rintro r s' (⟨rfl, rfl⟩ | ⟨p, rfl, hinv⟩)
    · exact (ok_pure _).mpr (.inl ⟨rfl, rfl⟩)
    · refine ok_bind.mpr ((ok_modify _).mpr ((ok_pure _).mpr (.inr ⟨p, rfl, ?_⟩)))
      exact hinv.patch_live mem_cons_self hfit (Nat.le_refl _)

/-- The blocks in use after `realloc` gave the new block `r`. -/
def afterRealloc (live : List Live) (old : Option Nat) (size : Nat) (r : Option Nat) : List Live :=
  match old, r with
  | none, none => live
  | none, some p => ⟨p, size⟩ :: live
  | some q, none => if size = 0 then without live q else live
  | some q, some p => ⟨p, size⟩ :: without live q

theorem without_cons_ne (h : p.addr ≠ b) : without (p :: live) b = p :: without live b := by
  simp [without, h]

theorem Inv.ok_realloc {old : Option Nat} (h : Inv s live)
    (hold : ∀ q, old = some q → ∃ p ∈ live, p.addr = q) (hfit : ∀ q, old = some q → size + arenaSize < 2 ^ 32)
    (grant : Option Nat) : Ok (realloc old size grant) s fun r s' => Inv s' (afterRealloc live old size r) := by
  unfold realloc
  split
  next hzero =>
    cases old with
    | none => exact ok_bind.mpr ((ok_pure _).mpr ((ok_pure _).mpr h))
    | some q =>
      obtain ⟨p, hp, rfl⟩ := hold q rfl
      refine ok_bind.mpr ((h.ok_free hp).mono fun _ s' hinv => (ok_pure _).mpr ?_)
      rwa [afterRealloc, if_pos hzero]
  next hpos =>
    refine ok_bind.mpr ((h.ok_malloc size grant).mono ?_)
    rintro r s' (⟨rfl, rfl⟩ | ⟨new, rfl, hinv⟩)
    · cases old with
      | none => exact (ok_pure _).mpr h
      | some q => exact (ok_pure _).mpr (by rwa [afterRealloc, if_neg hpos])
    · cases old with
      | none => exact (ok_pure _).mpr hinv
      | some q =>
        obtain ⟨p, hp, rfl⟩ := hold q rfl
        have hmem : p ∈ (⟨new, size⟩ : Live) :: live := mem_cons_of_mem _ hp
        have hcopy : ∀ n ≤ size, ∀ f, Inv { s' with mem := Core.patch s'.mem new n f } (⟨new, size⟩ :: live) :=
          fun n hn f => hinv.patch_live mem_cons_self (hfit _ rfl) hn
        obtain ⟨K, hK⟩ := hinv
        obtain ⟨a, kd, ha, hb, -, -⟩ := hK.used p hmem
        have hne : new ≠ p.addr := fun he =>
          (nodup_cons.mp hK.liveNodup).1 (mem_map.mpr ⟨p, hp, he.symm⟩)
        refine ok_bind.mpr ⟨_, _, hK.blockSize_eq ha hb, ok_bind.mpr ((ok_modify _).mpr (ok_bind.mpr ?_))⟩
        refine ((hcopy _ (Nat.min_le_left size kd.len) _).ok_free hmem).mono fun _ s'' hfree => (ok_pure _).mpr ?_
        rwa [without_cons_ne hne] at hfree

/-! ## Runs -/

/-- The number of bytes and of pages the header of a block stands for. -/
def St.blockLen (s : St) (p : Nat) : Nat :=
  if s.word (pgRoundDown p + 4) = 0 then pgSize * s.word (pgRoundDown p + 8) - arenaSize
  else ((descs[s.word (pgRoundDown p + 4) - 1]?).map Desc.blockSize).getD 0

def St.arenaPages (s : St) (p : Nat) : Nat :=
  if s.word (pgRoundDown p + 4) = 0 then s.word (pgRoundDown p + 8) else 1

/-- The bytes of the block at `p`. -/
def St.extent (s : St) (p : Nat) : Set Nat := Set.Ico p (p + s.blockLen p)

theorem InvK.len_eq (h : InvK K s live) (ha : K a = some kd) (hb : kd.IsBlock a b) :
    s.blockLen b = kd.len ∧ s.arenaPages b = kd.pages := by
  unfold St.blockLen St.arenaPages
  rw [h.round ha hb, (h.header ha).desc, h.cnt ha]
  cases kd with
  | small d i =>
    have hd : descs[i]? = some d := (h.header ha).ok
    simp [Kind.ptr, Kind.len, Kind.pages, hd]
  | big n => exact ⟨rfl, rfl⟩

/-- What a thread does with the heap: the calls, and stores into its blocks.
`grant` is the answer of the page allocator. -/
inductive Call
  | malloc (size : Nat) (grant : Option Nat)
  | calloc (a b : Nat) (grant : Option Nat)
  | realloc (old : Option Nat) (size : Nat) (grant : Option Nat)
  | free (p : Option Nat)
  | store (x : Nat) (value : UInt8)

def Call.code : Call → M (Option Nat)
  | malloc size grant => Malloc.malloc size grant
  | calloc a b grant => Malloc.calloc a b grant
  | realloc old size grant => Malloc.realloc old size grant
  | free p => do
    Malloc.free p
    pure none
  | store x value => do
    memset x value 1
    pure none

/-- Sizes are 32-bit, only blocks in use are freed, and stores stay inside
blocks in use. -/
def Call.Valid (s : St) (live : List Live) : Call → Prop
  | malloc size _ => size < 2 ^ 32
  | calloc a b _ => a < 2 ^ 32 ∧ b < 2 ^ 32
  | realloc old size _ => size < 2 ^ 32 ∧ ∀ q, old = some q → ∃ p ∈ live, p.addr = q
  | free old => ∀ q, old = some q → ∃ p ∈ live, p.addr = q
  | store x _ => ∃ p ∈ live, x ∈ s.extent p.addr

/-- The size that `calloc` clears or `realloc` copies does not wrap around,
with the header added. -/
def Call.Fits : Call → Prop
  | calloc a b _ => a * b + arenaSize < 2 ^ 32
  | realloc (some _) size _ => size + arenaSize < 2 ^ 32
  | _ => True

/-- The blocks in use after a call that returned `r`. -/
def Call.after (live : List Live) : Call → Option Nat → List Live
  | malloc size _, some p => ⟨p, size⟩ :: live
  | calloc a b _, some p => ⟨p, a * b⟩ :: live
  | realloc old size _, r => afterRealloc live old size r
  | free (some q), _ => without live q
  | _, _ => live

/-- The runs from `malloc_init` whose calls satisfy `C`. -/
inductive Run (C : Call → Prop) : St → List Live → Prop
  | init (mem : Nat → UInt8) : Run C ⟨mem, fun _ => [], ∅⟩ []
  | call {s s' : St} {live : List Live} {r : Option Nat} (c : Call) (hr : Run C s live) (hv : c.Valid s live)
      (hc : C c) (h : c.code s = .ok (r, s')) : Run C s' (c.after live r)

theorem Inv.ok_store {value : UInt8} (h : Inv s live) (hx : ∃ p ∈ live, x ∈ s.extent p.addr) :
    Inv { s with mem := Core.patch s.mem x 1 fun _ => value } live := by
  obtain ⟨K, h⟩ := h
  obtain ⟨p, hp, hlo, hhi⟩ := hx
  obtain ⟨a, kd, ha, hb, -, -⟩ := h.used p hp
  rw [(h.len_eq ha hb).1] at hhi
  exact ⟨K, h.patch_block ha hb hlo hhi⟩

/-- One call: it returns and keeps the invariant. -/
theorem Call.ok {c : Call} (h : Inv s live) (hv : c.Valid s live) (hf : c.Fits) :
    Ok c.code s fun r s' => Inv s' (c.after live r) := by
  cases c with
  | malloc size grant =>
    refine (h.ok_malloc size grant).mono ?_
    rintro r s' (⟨rfl, rfl⟩ | ⟨p, rfl, hinv⟩)
    · exact h
    · exact hinv
  | calloc x y grant =>
    refine (h.ok_calloc hf grant).mono ?_
    rintro r s' (⟨rfl, rfl⟩ | ⟨p, rfl, hinv⟩)
    · exact h
    · exact hinv
  | realloc old size grant =>
    refine h.ok_realloc hv.2 (fun q hq => ?_) grant
    subst hq
    exact hf
  | free old =>
    cases old with
    | none => exact ok_bind.mpr ((ok_pure _).mpr ((ok_pure _).mpr h))
    | some q =>
      obtain ⟨p, hp, rfl⟩ := hv q rfl
      exact ok_bind.mpr ((h.ok_free hp).mono fun _ _ hinv => (ok_pure _).mpr hinv)
  | store x value => exact ok_bind.mpr ((ok_modify _).mpr ((ok_pure _).mpr (h.ok_store hv)))

theorem Inv.init (mem : Nat → UInt8) : Inv ⟨mem, fun _ => [], ∅⟩ [] :=
  ⟨fun _ => none, nofun, nofun, nofun, nofun, nofun, fun _ => .nil, nofun, .nil⟩

theorem Run.inv (hr : Run Call.Fits s live) : Inv s live := by
  induction hr with
  | init mem => exact .init mem
  | call c _ hv hc h ih => exact (Call.ok ih hv hc).post h

/-! ## The result -/

/-- `a` is the page of a small arena of `descs[i]`: it has a block on the free
list, or a block in use and a header that names the descriptor. -/
def St.SmallArena (s : St) (live : List Live) (a i : Nat) : Prop :=
  (∃ b ∈ s.freeList i, pgRoundDown b = a) ∨ ∃ p ∈ live, pgRoundDown p.addr = a ∧ s.word (a + 4) = i + 1

structure St.Sound (s : St) (live : List Live) : Prop where
  disjoint : live.Pairwise fun p q => Disjoint (s.extent p.addr) (s.extent q.addr)
  inside : ∀ p ∈ live, s.extent p.addr ⊆
    Set.Ico (pgRoundDown p.addr + arenaSize) (pgRoundDown p.addr + pgSize * s.arenaPages p.addr)
  held : ∀ p ∈ live, pagesOf (pgRoundDown p.addr) (s.arenaPages p.addr) ⊆ s.pages
  long : ∀ p ∈ live, p.size + arenaSize + (pgSize - 1) < 2 ^ 32 → p.size ≤ s.blockLen p.addr
  freeCnt : ∀ a i, s.SmallArena live a i →
    s.word (a + 8) = ((s.freeList i).filter fun b => pgRoundDown b = a).length
  freeHeld : ∀ i, ∀ b ∈ s.freeList i, pgRoundDown b ∈ s.pages
  freeApart : ∀ p ∈ live, ∀ i, ∀ b ∈ s.freeList i, Disjoint (s.extent p.addr) (s.extent b)

/-- Different blocks of arenas do not overlap. -/
theorem InvK.extent_disjoint {b' : Nat} {kd' : Kind} (h : InvK K s live) (ha : K a = some kd)
    (hb : kd.IsBlock a b) (hc : K c = some kd') (hb' : kd'.IsBlock c b') (hne : b ≠ b') :
    Disjoint (s.extent b) (s.extent b') := by
  have hapart := h.blocks_apart ha hb hc hb' hne
  unfold St.extent
  rw [(h.len_eq ha hb).1, (h.len_eq hc hb').1]
  exact Set.Ico_disjoint_Ico.mpr (by omega)

theorem InvK.sound (h : InvK K s live) : s.Sound live := by
  refine ⟨?_, fun p hp => ?_, fun p hp => ?_, fun p hp hsz => ?_, ?_, fun i b hb => ?_, fun p hp i b hb => ?_⟩
  · have hne : live.Pairwise fun p q => p.addr ≠ q.addr := pairwise_map.mp h.liveNodup
    refine hne.imp_of_mem fun {p q} hp hq hpq => ?_
    obtain ⟨a, kd, ha, hb, -, -⟩ := h.used p hp
    obtain ⟨c, kd', hc, hb', -, -⟩ := h.used q hq
    exact h.extent_disjoint ha hb hc hb' hpq
  · obtain ⟨a, kd, ha, hb, -, -⟩ := h.used p hp
    obtain ⟨h1, h2, -⟩ := hb.bounds (h.header ha).ok
    rw [St.extent, (h.len_eq ha hb).1, (h.len_eq ha hb).2, h.round ha hb]
    exact Set.Ico_subset_Ico h1 h2
  · obtain ⟨a, kd, ha, hb, -, -⟩ := h.used p hp
    rw [(h.len_eq ha hb).2, h.round ha hb]
    exact h.held ha
  · obtain ⟨a, kd, ha, hb, -, hlen⟩ := h.used p hp
    rw [(h.len_eq ha hb).1]
    exact hlen (by omega)
  · rintro a i (⟨b, hb, rfl⟩ | ⟨p, hp, rfl, hptr⟩)
    · obtain ⟨c, d, hc, hblk⟩ := h.free hb
      rw [h.round hc hblk, h.cnt hc]
      rfl
    · obtain ⟨c, kd, hc, hblk, -, -⟩ := h.used p hp
      rw [h.round hc hblk] at hptr ⊢
      rw [(h.header hc).desc] at hptr
      rw [h.cnt hc]
      cases kd with
      | small d j =>
        obtain rfl : j = i := Nat.succ.inj hptr
        rfl
      | big n => exact absurd hptr.symm (Nat.succ_ne_zero i)
  · obtain ⟨c, d, hc, hblk⟩ := h.free hb
    rw [h.round hc hblk]
    exact h.held hc (self_mem_pagesOf (Nat.le_refl 1))
  · obtain ⟨a, kd, ha, hblk, hnot, -⟩ := h.used p hp
    obtain ⟨c, d, hc, hblk'⟩ := h.free hb
    refine h.extent_disjoint ha hblk hc hblk' fun he => hnot i ?_
    rwa [he]

/-- In every run in which the sizes `calloc` clears and `realloc` copies do
not wrap around, the heap is sound and every valid call returns. -/
theorem kernel_heap {s : St} {live : List Live} (hr : Run Call.Fits s live) :
    s.Sound live ∧ ∀ c : Call, c.Valid s live → c.Fits → ∃ r s', c.code s = .ok (r, s') := by
  obtain ⟨K, hK⟩ := hr.inv
  refine ⟨hK.sound, fun c hv hf => ?_⟩
  obtain ⟨r, s', he, -⟩ := Call.ok ⟨K, hK⟩ hv hf
  exact ⟨r, s', he⟩

/-- `c` returns `r` from `s`, and then `next` holds. -/
def Call.gives (c : Call) (r : Option Nat) (s : St) (next : St → Bool) : Bool :=
  check c.code s fun r' s' => decide (r' = r) && next s'

theorem Call.step_of_gives {c : Call} {r : Option Nat} {next : St → Bool} (h : c.gives r s next = true) :
    ∃ s', c.code s = .ok (r, s') ∧ next s' = true := by
  obtain ⟨r', s', he, ht⟩ := ok_of_check h
  rw [Bool.and_eq_true, decide_eq_true_eq] at ht
  obtain ⟨rfl, hnext⟩ := ht
  exact ⟨s', he, hnext⟩

/-- Memory of zeros, before the first call. -/
def fresh : St := ⟨fun _ => 0, fun _ => [], ∅⟩

/-- One block of 100 bytes, which can be freed. -/
theorem kernel_heap_one_block : ∃ s : St, Run Call.Fits s [⟨0x1000c, 100⟩] ∧ s.Sound [⟨0x1000c, 100⟩] ∧
    ∃ r s', (Call.free (some 0x1000c)).code s = .ok (r, s') := by
  have hrun : (Call.malloc 100 (some 0x10000)).gives (some 0x1000c) fresh (fun _ => true) = true := by decide
  obtain ⟨s, he, -⟩ := Call.step_of_gives hrun
  have hr : Run Call.Fits s [⟨0x1000c, 100⟩] :=
    .call (.malloc 100 (some 0x10000)) (.init fun _ => 0) (show 100 < 2 ^ 32 by decide) trivial he
  obtain ⟨hsound, hnext⟩ := kernel_heap hr
  refine ⟨s, hr, hsound, hnext (.free (some 0x1000c)) ?_ trivial⟩
  rintro q hq
  cases hq
  exact ⟨_, mem_singleton_self _, rfl⟩

def Call.fails (c : Call) (e : Panic) (s : St) : Bool :=
  match c.code s with
  | .ok _ => false
  | .error e' => decide (e' = e)

theorem Call.error_of_fails {c : Call} {e : Panic} (h : c.fails e s = true) : c.code s = .error e := by
  unfold Call.fails at h
  split at h
  · cases h
  next e' he => rw [he, of_decide_eq_true h]

/-- A block of two pages, a small block in the page after the one that
`realloc` gets for 0xfffffff8 bytes: the copy runs over the header of the
small block's arena, and freeing that block fails. -/
theorem realloc_overruns : ∃ (s : St) (live : List Live) (c : Call),
    Run (fun _ => True) s live ∧ c.Valid s live ∧ c.code s = .error .assertion := by
  have hrun : (Call.malloc 8180 (some 0x10000)).gives (some 0x1000c) fresh (fun s₁ =>
      (Call.malloc 1024 (some 0x21000)).gives (some 0x2100c) s₁ fun s₂ =>
      (Call.realloc (some 0x1000c) 0xfffffff8 (some 0x20000)).gives (some 0x2000c) s₂ fun s₃ =>
      (Call.free (some 0x2100c)).fails .assertion s₃) = true := by decide
  obtain ⟨s₁, h₁, hrun⟩ := Call.step_of_gives hrun
  obtain ⟨s₂, h₂, hrun⟩ := Call.step_of_gives hrun
  obtain ⟨s₃, h₃, hrun⟩ := Call.step_of_gives hrun
  have r₁ : Run (fun _ => True) s₁ [⟨0x1000c, 8180⟩] :=
    .call (.malloc 8180 (some 0x10000)) (.init fun _ => 0) (show 8180 < 2 ^ 32 by decide) trivial h₁
  have r₂ : Run (fun _ => True) s₂ [⟨0x2100c, 1024⟩, ⟨0x1000c, 8180⟩] :=
    .call (.malloc 1024 (some 0x21000)) r₁ (show 1024 < 2 ^ 32 by decide) trivial h₂
  have v₃ : (Call.realloc (some 0x1000c) 0xfffffff8 (some 0x20000)).Valid s₂ [⟨0x2100c, 1024⟩, ⟨0x1000c, 8180⟩] := by
    refine ⟨by decide, fun q hq => ⟨⟨0x1000c, 8180⟩, by simp, ?_⟩⟩
    cases hq
    rfl
  have r₃ := Run.call _ r₂ v₃ trivial h₃
  refine ⟨s₃, _, .free (some 0x2100c), r₃, fun q hq => ⟨⟨0x2100c, 1024⟩, ?_, ?_⟩, Call.error_of_fails hrun⟩
  · simp [Call.after, afterRealloc, without]
  · cases hq
    rfl

end Pintos.Malloc
