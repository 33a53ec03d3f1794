import Mathlib

/-!
# Counting loops

`forLoop lo hi f s` is `for (i = lo; i < hi; i++) s = f (s, i)`.
-/
namespace Pintos.Core

variable {σ : Type} {f : σ → Nat → σ} {lo hi : Nat} {s : σ}

def forLoop (lo hi : Nat) (f : σ → Nat → σ) (s : σ) : σ := (List.range' lo (hi - lo)).foldl f s

theorem forLoop_of_le (h : hi ≤ lo) : forLoop lo hi f s = s := by
  unfold forLoop
  rw [Nat.sub_eq_zero_of_le h]
  rfl

theorem forLoop_succ (h : lo ≤ hi) : forLoop lo (hi + 1) f s = f (forLoop lo hi f s) hi := by
  unfold forLoop
  rw [Nat.sub_add_comm h, List.range'_concat, List.foldl_append, Nat.one_mul, Nat.add_sub_cancel' h]
  rfl

/-- What one iteration takes from `i` to `i + 1` the loop takes to its end. -/
theorem forLoop_inv {P : Nat → σ → Prop} (hle : lo ≤ hi) (h₀ : P lo s)
    (hstep : ∀ i s, lo ≤ i → i < hi → P i s → P (i + 1) (f s i)) : P hi (forLoop lo hi f s) := by
  induction hi, hle using Nat.le_induction with
  | base =>
    rw [forLoop_of_le (Nat.le_refl lo)]
    exact h₀
  | succ n hn ih =>
    rw [forLoop_succ hn]
    exact hstep n _ hn (Nat.lt_succ_self n) (ih fun i s hi hin => hstep i s hi (Nat.lt_succ_of_lt hin))

/-- Two loops in step. -/
theorem forLoop_rel {τ : Type} {g : τ → Nat → τ} {t : τ} {R : Nat → σ → τ → Prop} (hle : lo ≤ hi) (h₀ : R lo s t)
    (hstep : ∀ i s t, lo ≤ i → i < hi → R i s t → R (i + 1) (f s i) (g t i)) :
    R hi (forLoop lo hi f s) (forLoop lo hi g t) := by
  induction hi, hle using Nat.le_induction with
  | base =>
    rw [forLoop_of_le (Nat.le_refl lo), forLoop_of_le (Nat.le_refl lo)]
    exact h₀
  | succ n hn ih =>
    rw [forLoop_succ hn, forLoop_succ hn]
    exact hstep n _ _ hn (Nat.lt_succ_self n) (ih fun i s t hi hin => hstep i s t hi (Nat.lt_succ_of_lt hin))

end Pintos.Core
