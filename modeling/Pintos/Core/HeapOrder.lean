import Mathlib

/-!
# Binary heaps in arrays

An array is a function on positions, of which those from 1 to `n` count; the
children of `i` are `2 * i` and `2 * i + 1`. A heap below `k` with a hole at `i`
is a heap but for the order between `i` and its children. Sinking the hole to a
largest child keeps that, and it is filled once its children are no larger.

For sorting, an array is parted at `i` if the positions above `i` are in order
and hold nothing smaller than the positions up to `i`.
-/
namespace Pintos.Core

open List

/-- Any two values compare, and comparing is transitive. -/
structure TotalPreorder {α : Type} (le : α → α → Prop) : Prop where
  total : ∀ a b, le a b ∨ le b a
  trans : ∀ {a b c}, le a b → le b c → le a c

def IsChild (i c : Nat) : Prop := c = 2 * i ∨ c = 2 * i + 1

variable {α : Type} {le : α → α → Prop} {f g h : Nat → α} {n k i j c : Nat}

/-- No child of `i` is larger than `i`. -/
def Tops (le : α → α → Prop) (f : Nat → α) (n i : Nat) : Prop := ∀ c, IsChild i c → c ≤ n → le (f c) (f i)

def HeapFrom (le : α → α → Prop) (f : Nat → α) (n k : Nat) : Prop := ∀ i, k ≤ i → Tops le f n i

structure Hole (le : α → α → Prop) (f : Nat → α) (n k i : Nat) : Prop where
  others : ∀ j, k ≤ j → j ≠ i → Tops le f n j
  above : ∀ j, k ≤ j → IsChild j i → ∀ c, IsChild i c → c ≤ n → le (f c) (f j)

/-! ## Sinking the hole -/

theorem Hole.start (hk : 1 ≤ k) (hheap : HeapFrom le f n (k + 1)) : Hole le f n k k := by
  refine ⟨fun j hj hne => hheap j (by omega), fun j hj hchild => ?_⟩
  unfold IsChild at hchild
  omega

theorem Hole.filled (hole : Hole le f n k i) (htops : Tops le f n i) : HeapFrom le f n k := by
  intro j hj
  by_cases hji : j = i
  · rw [hji]
    exact htops
  · exact hole.others j hj hji

theorem Hole.sink (hole : Hole le f n k i) (hk : 1 ≤ k) (hi : k ≤ i) (hc : IsChild i c) (hcn : c ≤ n)
    (hup : le (f i) (f c)) (hmax : ∀ d, IsChild i d → d ≤ n → le (f d) (f c)) :
    Hole le (f ∘ Equiv.swap i c) n k c := by
  have hat : (f ∘ Equiv.swap i c) i = f c := congrArg f (Equiv.swap_apply_left i c)
  have hdown : (f ∘ Equiv.swap i c) c = f i := congrArg f (Equiv.swap_apply_right i c)
  have hrest : ∀ {j}, j ≠ i → j ≠ c → (f ∘ Equiv.swap i c) j = f j := fun h₁ h₂ =>
    congrArg f (Equiv.swap_apply_of_ne_of_ne h₁ h₂)
  unfold IsChild at hc
  refine ⟨fun j hj hjc d hd hdn => ?_, fun j hj hjc d hd hdn => ?_⟩
  · by_cases hji : j = i
    · subst hji
      rw [hat]
      by_cases hdc : d = c
      · rw [hdc, hdown]
        exact hup
      · rw [hrest (by unfold IsChild at hd; omega) hdc]
        exact hmax d hd hdn
    · rw [hrest hji hjc]
      by_cases hdi : d = i
      · -- The larger child now stands where the hole was.
        subst hdi
        rw [hat]
        exact hole.above j hj hd c hc hcn
      · rw [hrest hdi (by unfold IsChild at hd; omega)]
        exact hole.others j hj hji d hd hdn
  · obtain rfl : j = i := by unfold IsChild at hjc; omega
    rw [hat, hrest (by unfold IsChild at hd; omega) (by unfold IsChild at hd; omega)]
    exact hole.others c (by omega) (by omega) d hd hdn

/-- Of `i` and its child `c`, the position of the larger element. -/
def larger (le : α → α → Prop) [DecidableRel le] (f : Nat → α) (n c i : Nat) : Nat :=
  if c ≤ n ∧ ¬ le (f c) (f i) then c else i

theorem le_larger [DecidableRel le] (hp : TotalPreorder le) (f : Nat → α) (n c i : Nat) :
    le (f i) (f (larger le f n c i)) ∧ (c ≤ n → le (f c) (f (larger le f n c i))) := by
  have hrefl : ∀ a, le a a := fun a => (hp.total a a).elim id id
  unfold larger
  by_cases hc : c ≤ n ∧ ¬ le (f c) (f i)
  · rw [if_pos hc]
    exact ⟨(hp.total (f i) (f c)).resolve_right hc.2, fun _ => hrefl _⟩
  · rw [if_neg hc]
    exact ⟨hrefl _, fun hcn => not_not.mp fun hle => hc ⟨hcn, hle⟩⟩

/-- The larger of `i` and its children: `i` itself, which then tops them, or a
largest child. -/
theorem larger_children [DecidableRel le] (hp : TotalPreorder le) (f : Nat → α) (n i : Nat) {max : Nat}
    (hmax : max = larger le f n (2 * i + 1) (larger le f n (2 * i) i)) :
    le (f i) (f max) ∧ (∀ d, IsChild i d → d ≤ n → le (f d) (f max)) ∧ (max = i ∨ IsChild i max ∧ max ≤ n) := by
  obtain ⟨hi, hleft⟩ := le_larger hp f n (2 * i) i
  obtain ⟨hfirst, hright⟩ := le_larger hp f n (2 * i + 1) (larger le f n (2 * i) i)
  rw [← hmax] at hfirst hright
  refine ⟨hp.trans hi hfirst, ?_, ?_⟩
  · rintro d (rfl | rfl) hdn
    · exact hp.trans (hleft hdn) hfirst
    · exact hright hdn
  · rw [hmax]
    unfold larger IsChild
    split_ifs <;> omega

/-- The root of a heap is a largest element. -/
theorem HeapFrom.le_root (hp : TotalPreorder le) (hheap : HeapFrom le f n 1) (hj : 1 ≤ j) (hjn : j ≤ n) :
    le (f j) (f 1) := by
  induction j using Nat.strong_induction_on with
  | _ j ih =>
    by_cases hone : j = 1
    · rw [hone]
      exact (hp.total (f 1) (f 1)).elim id id
    · have hparent : le (f j) (f (j / 2)) := hheap (j / 2) (by omega) j (by unfold IsChild; omega) hjn
      exact hp.trans hparent (ih (j / 2) (by omega) (by omega) (by omega))

/-! ## Rearranging -/

/-- `g` holds the elements of `f` in another order of the positions 1 to `n`. -/
def Permuted (n : Nat) (f g : Nat → α) : Prop :=
  ∃ σ : Equiv.Perm Nat, (∀ j, j = 0 ∨ n < j → σ j = j) ∧ g = f ∘ σ

theorem Permuted.refl (n : Nat) (f : Nat → α) : Permuted n f f := ⟨1, fun _ _ => rfl, rfl⟩

theorem Permuted.swap (f : Nat → α) (hi : 1 ≤ i) (hin : i ≤ n) (hc : 1 ≤ c) (hcn : c ≤ n) :
    Permuted n f (f ∘ Equiv.swap i c) :=
  ⟨Equiv.swap i c, fun j hj => Equiv.swap_apply_of_ne_of_ne (by omega) (by omega), rfl⟩

theorem Permuted.trans (hfg : Permuted n f g) (hgh : Permuted n g h) : Permuted n f h := by
  obtain ⟨σ, hσ, rfl⟩ := hfg
  obtain ⟨τ, hτ, rfl⟩ := hgh
  refine ⟨σ * τ, fun j hj => ?_, rfl⟩
  rw [Equiv.Perm.mul_apply, hτ j hj, hσ j hj]

theorem Permuted.mono (hfg : Permuted i f g) (hin : i ≤ n) : Permuted n f g := by
  obtain ⟨σ, hσ, rfl⟩ := hfg
  exact ⟨σ, fun j hj => hσ j (by omega), rfl⟩

theorem Permuted.eq_of_gt (hfg : Permuted n f g) (hj : n < j) : g j = f j := by
  obtain ⟨σ, hσ, rfl⟩ := hfg
  exact congrArg f (hσ j (.inr hj))

theorem perm_range {σ : Equiv.Perm Nat} (hσ : ∀ j, j = 0 ∨ n < j → σ j = j) (hj : 1 ≤ j) (hjn : j ≤ n) :
    1 ≤ σ j ∧ σ j ≤ n := by
  by_contra hout
  -- A position outside is fixed, and `σ` sends only itself there.
  have hfix : σ j = j := σ.injective (hσ (σ j) (by omega))
  omega

theorem Permuted.source (hfg : Permuted n f g) (hj : 1 ≤ j) (hjn : j ≤ n) : ∃ i, 1 ≤ i ∧ i ≤ n ∧ g j = f i := by
  obtain ⟨σ, hσ, rfl⟩ := hfg
  obtain ⟨hlo, hhi⟩ := perm_range hσ hj hjn
  exact ⟨σ j, hlo, hhi, rfl⟩

theorem Permuted.perm (hfg : Permuted n f g) : ((range' 1 n).map g).Perm ((range' 1 n).map f) := by
  obtain ⟨σ, hσ, rfl⟩ := hfg
  rw [← map_map]
  have hnodup : (range' 1 n).Nodup := nodup_range' 1
  refine Perm.map f ((perm_ext_iff_of_nodup (hnodup.map σ.injective) hnodup).mpr fun x => ?_)
  simp only [mem_map, mem_range'_1]
  constructor
  · rintro ⟨j, hj, rfl⟩
    have := perm_range hσ hj.1 (by omega)
    omega
  · intro hx
    have hinv : ∀ j, j = 0 ∨ n < j → σ.symm j = j := fun j hj => (Equiv.symm_apply_eq σ).mpr (hσ j hj).symm
    have := perm_range hinv hx.1 (by omega)
    exact ⟨σ.symm x, by omega, σ.apply_symm_apply x⟩

/-! ## Sorting by taking roots -/

structure Parted (le : α → α → Prop) (f : Nat → α) (n i : Nat) : Prop where
  upper : ∀ p q, i < p → p < q → q ≤ n → le (f p) (f q)
  apart : ∀ p q, 1 ≤ p → p ≤ i → i < q → q ≤ n → le (f p) (f q)

theorem Parted.all (le : α → α → Prop) (f : Nat → α) (n : Nat) : Parted le f n n :=
  ⟨fun _ _ _ _ _ => by omega, fun _ _ _ _ _ _ => by omega⟩

theorem Parted.rearrange (hpart : Parted le f n i) (hfg : Permuted i f g) : Parted le g n i := by
  refine ⟨fun p q hp hpq hq => ?_, fun p q hp hpi hq hqn => ?_⟩
  · rw [hfg.eq_of_gt hp, hfg.eq_of_gt (show i < q by omega)]
    exact hpart.upper p q hp hpq hq
  · obtain ⟨x, hx, hxi, heq⟩ := hfg.source hp hpi
    rw [heq, hfg.eq_of_gt hq]
    exact hpart.apart x q hx hxi hq hqn

/-- The root of the heap goes behind it. -/
theorem Parted.take (hp : TotalPreorder le) (hpart : Parted le f n (i + 1)) (hheap : HeapFrom le f (i + 1) 1)
    (hi : 1 ≤ i) : Parted le (f ∘ Equiv.swap 1 (i + 1)) n i := by
  have hlast : (f ∘ Equiv.swap 1 (i + 1)) (i + 1) = f 1 := congrArg f (Equiv.swap_apply_right 1 (i + 1))
  have hrest : ∀ {j}, i + 1 < j → (f ∘ Equiv.swap 1 (i + 1)) j = f j := fun hj =>
    congrArg f (Equiv.swap_apply_of_ne_of_ne (by omega) (by omega))
  have hlow : ∀ {j}, 1 ≤ j → j ≤ i → ∃ x, 1 ≤ x ∧ x ≤ i + 1 ∧ (f ∘ Equiv.swap 1 (i + 1)) j = f x := fun hj hji =>
    (Permuted.swap f (le_refl 1) (by omega) (by omega) (le_refl (i + 1))).source hj (by omega)
  refine ⟨fun p q hip hpq hq => ?_, fun p q hp1 hpi hiq hq => ?_⟩
  · rw [hrest (show i + 1 < q by omega)]
    by_cases hpe : p = i + 1
    · rw [hpe, hlast]
      exact hpart.apart 1 q (le_refl 1) (by omega) (by omega) hq
    · rw [hrest (show i + 1 < p by omega)]
      exact hpart.upper p q (by omega) hpq hq
  · obtain ⟨x, hx, hxi, heq⟩ := hlow hp1 hpi
    rw [heq]
    by_cases hqe : q = i + 1
    · rw [hqe, hlast]
      exact hheap.le_root hp hx hxi
    · rw [hrest (show i + 1 < q by omega)]
      exact hpart.apart x q hx hxi (by omega) hq

/-- The shortened heap has its hole at the root. -/
theorem HeapFrom.take (hheap : HeapFrom le f (i + 1) 1) : Hole le (f ∘ Equiv.swap 1 (i + 1)) i 1 1 := by
  refine Hole.start (le_refl 1) fun j hj c hc hci => ?_
  have hrest : ∀ {x}, 2 ≤ x → x ≤ i → (f ∘ Equiv.swap 1 (i + 1)) x = f x := fun h₁ h₂ =>
    congrArg f (Equiv.swap_apply_of_ne_of_ne (by omega) (by omega))
  rw [hrest (show 2 ≤ c by unfold IsChild at hc; omega) hci, hrest hj (by unfold IsChild at hc; omega)]
  exact hheap j (by omega) c hc (by omega)

theorem Parted.pairwise (hpart : Parted le f n i) (hi : i ≤ 1) : ((range' 1 n).map f).Pairwise le := by
  have hlt : (range' 1 n).Pairwise (· < ·) := pairwise_lt_range' 1
  refine pairwise_map.mpr (hlt.imp_of_mem fun {p q} hp hq hpq => ?_)
  rw [mem_range'_1] at hp hq
  by_cases hlow : p ≤ i
  · exact hpart.apart p q (by omega) hlow (by omega) (by omega)
  · exact hpart.upper p q (by omega) hpq (by omega)

end Pintos.Core
