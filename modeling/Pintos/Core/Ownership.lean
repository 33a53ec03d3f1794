import Mathlib

/-!
# Owners of disjoint extents, and counts of references

`Owned L ext used`: the owners in `L` have pairwise disjoint extents, and all
of these are marked used. The rules are those of an allocator: an owner may be
forgotten, get an extent that was not marked, or give its extent back.

`count t P n`: how many of the objects of table `t` below `n` satisfy `P`,
with the effect of changing one entry. A reference count is such a number.
-/
namespace Pintos.Core

open Function List

/-! ## Extents -/

variable {ι α : Type}

/-- Owners in `L` have disjoint extents, all marked used. -/
structure Owned (L : Set ι) (ext : ι → Set α) (used : Set α) : Prop where
  disjoint : L.PairwiseDisjoint ext
  sub : ∀ x ∈ L, ext x ⊆ used

namespace Owned

variable {L L' : Set ι} {ext ext' : ι → Set α} {used used' : Set α}

/-- Owners are forgotten, extents of the others stay as they are and stay marked. -/
theorem mono (h : Owned L ext used) (hL : L' ⊆ L) (hext : ∀ x ∈ L', ext' x = ext x)
    (hused : ∀ x ∈ L', ext x ⊆ used') : Owned L' ext' used' where
  disjoint := by
    intro x hx y hy hne
    change Disjoint (ext' x) (ext' y)
    rw [hext x hx, hext y hy]
    exact h.disjoint (hL hx) (hL hy) hne
  sub x hx := by
    rw [hext x hx]
    exact hused x hx

/-- A new owner whose extent meets no other. -/
theorem insert {x : ι} (h : Owned L ext used) (hx : ∀ y ∈ L, Disjoint (ext x) (ext y)) (hsub : ext x ⊆ used)
    (hL : ∀ y ∈ L', y = x ∨ y ∈ L) : Owned L' ext used where
  disjoint := by
    intro y hy z hz hne
    change Disjoint (ext y) (ext z)
    rcases hL y hy with rfl | hy
    · rcases hL z hz with rfl | hz
      · exact absurd rfl hne
      · exact hx z hz
    · rcases hL z hz with rfl | hz
      · exact (hx y hy).symm
      · exact h.disjoint hy hz hne
  sub y hy := by
    rcases hL y hy with rfl | hy
    · exact hsub
    · exact h.sub y hy

/-- An element has one owner. -/
theorem eq_of_mem (h : Owned L ext used) {x y : ι} {z : α} (hx : x ∈ L) (hy : y ∈ L) (hzx : z ∈ ext x)
    (hzy : z ∈ ext y) : x = y :=
  h.disjoint.elim_set hx hy z hzx hzy

end Owned

/-! ## Tables -/

theorem update_some_iff [DecidableEq ι] {t : ι → Option α} {i j : ι} {a b : α} :
    update t i (some a) j = some b ↔ j = i ∧ a = b ∨ j ≠ i ∧ t j = some b := by
  by_cases h : j = i <;> simp [h]

theorem update_none_iff [DecidableEq ι] {t : ι → Option α} {i j : ι} {b : α} :
    update t i none j = some b ↔ j ≠ i ∧ t j = some b := by
  by_cases h : j = i <;> simp [h]

/-! ## Counts -/

/-- The number of objects below `n` that satisfy `P`. -/
def count (t : Nat → Option α) (P : α → Bool) (n : Nat) : Nat :=
  (range n).countP fun g => (t g).any P

variable {t t' : Nat → Option α} {P : α → Bool} {n g : Nat}

theorem count_succ : count t P (n + 1) = count t P n + ((t n).any P).toNat := by
  simp only [count, range_succ, countP_append, countP_singleton]
  cases (t n).any P <;> rfl

theorem count_congr (h : ∀ k < n, (t' k).any P = (t k).any P) : count t' P n = count t P n :=
  countP_congr fun k hk => by rw [h k (mem_range.mp hk)]

theorem count_update_of_le (o : Option α) (h : n ≤ g) : count (update t g o) P n = count t P n :=
  count_congr fun k hk => by rw [update_of_ne (by omega)]

/-- One entry changes. -/
theorem count_update (o : Option α) (h : g < n) :
    count (update t g o) P n + ((t g).any P).toNat = count t P n + (o.any P).toNat := by
  induction n with
  | zero => omega
  | succ n ih =>
    rw [count_succ, count_succ]
    rcases Nat.lt_or_ge g n with hlt | hge
    · have := ih hlt
      rw [update_of_ne (by omega)]
      omega
    · obtain rfl : g = n := by omega
      rw [count_update_of_le o (Nat.le_refl g), update_self]
      omega

theorem count_none (h : ∀ k < n, t k = none) : count t P n = 0 :=
  countP_eq_zero.mpr fun k hk => by simp [h k (mem_range.mp hk)]

theorem count_pos {a : α} (hg : g < n) (ht : t g = some a) (hP : P a = true) : 0 < count t P n :=
  countP_pos_iff.mpr ⟨g, mem_range.mpr hg, by rw [ht]; exact hP⟩

theorem exists_of_count_pos (h : 0 < count t P n) : ∃ g a, g < n ∧ t g = some a ∧ P a = true := by
  obtain ⟨g, hg, hP⟩ := countP_pos_iff.mp h
  rw [Option.any_eq_true] at hP
  obtain ⟨a, ha, hPa⟩ := hP
  exact ⟨g, a, mem_range.mp hg, ha, hPa⟩

theorem count_le_count {P' : α → Bool} (h : ∀ a, P a = true → P' a = true) : count t P n ≤ count t P' n := by
  refine countP_mono_left fun g _ hP => ?_
  rw [Option.any_eq_true] at hP ⊢
  obtain ⟨a, ha, hPa⟩ := hP
  exact ⟨a, ha, h a hPa⟩

/-- All objects are below `n`: the count is the number of objects. -/
theorem count_eq_ncard (h : ∀ g, n ≤ g → t g = none) :
    count t P n = {g | ∃ a, t g = some a ∧ P a = true}.ncard := by
  have hset : {g | ∃ a, t g = some a ∧ P a = true} = ((range n).filter fun g => (t g).any P).toFinset := by
    ext g
    simp only [Set.mem_ofPred_eq, coe_toFinset, mem_filter, mem_range, Option.any_eq_true]
    refine ⟨fun hg => ⟨?_, hg⟩, And.right⟩
    obtain ⟨a, ha, -⟩ := hg
    by_contra hge
    rw [h g (Nat.le_of_not_lt hge)] at ha
    cases ha
  rw [hset, Set.ncard_coe_finset, toFinset_card_of_nodup (nodup_range.filter _), count,
    countP_eq_length_filter]

end Pintos.Core
