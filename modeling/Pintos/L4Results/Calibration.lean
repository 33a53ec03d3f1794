import Pintos.L2Code.Calibrate

/-!
# What calibration finds

The refinement tests each bit together with the highest one alone, not with the
bits it has accepted, so it takes every bit up to the first that fits. With
`q` for the number of units of `high_bit >> 9` by which the limit exceeds
`high_bit`, the result is right exactly when `q` is all ones in binary
(`calibration_exact_iff`).
-/
namespace Pintos.Timer

variable {T d n q : Nat}

theorem doubleLoops_eq (fuel : Nat) (hn : n + d ≤ 30) (hlo : 2 ^ (n + d) ≤ T) (hhi : T < 2 ^ (n + d + 1))
    (hfuel : d < fuel) : doubleLoops (fun k => T < k) fuel (2 ^ n) = some (.ok (2 ^ (n + d))) := by
  induction fuel generalizing n d with
  | zero => omega
  | succ fuel ih =>
    have hnext : (2 ^ n) <<< 1 % 2 ^ 32 = 2 ^ (n + 1) := by
      rw [Nat.shiftLeft_eq, ← pow_add, Nat.mod_eq_of_lt (Nat.pow_lt_pow_right (by decide) (by omega))]
    rw [doubleLoops, hnext]
    cases d with
    | zero => simp [hhi]
    | succ d =>
      have hle : 2 ^ (n + 1) ≤ T := (Nat.pow_le_pow_right (by decide) (by omega)).trans hlo
      simp only [Nat.not_lt.mpr hle, decide_false, Bool.false_eq_true, if_false, Nat.two_pow_pos, Nat.ne_of_gt]
      rw [ih (d := d) (by omega) (by rwa [Nat.add_right_comm]) (by rwa [Nat.add_right_comm n 1 d]) (by omega),
        Nat.add_right_comm, Nat.add_assoc]

/-- The bits below `2 ^ n` that do not exceed `q`. -/
def bitsUpTo (q : Nat) : Nat → Nat
  | 0 => 0
  | n + 1 => (if 2 ^ n ≤ q then 2 ^ n else 0) + bitsUpTo q n

theorem bitsUpTo_of_le (h : 2 ^ n ≤ 2 * q + 1) : bitsUpTo q n + 1 = 2 ^ n := by
  induction n with
  | zero => rfl
  | succ n ih =>
    rw [pow_succ] at h ⊢
    rw [bitsUpTo, if_pos (by omega), Nat.add_assoc, ih (by omega)]
    omega

/-- These are all the bits up to the highest one of `q`. -/
theorem bitsUpTo_eq (h : q < 2 ^ n) : ∃ k, bitsUpTo q n + 1 = 2 ^ k ∧ q < 2 ^ k ∧ 2 ^ k ≤ 2 * q + 1 := by
  induction n with
  | zero => exact ⟨0, rfl, h, by omega⟩
  | succ n ih =>
    by_cases hq : 2 ^ n ≤ q
    · exact ⟨n + 1, bitsUpTo_of_le (by rw [pow_succ]; omega), h, by rw [pow_succ]; omega⟩
    · rw [bitsUpTo, if_neg hq, Nat.zero_add]
      exact ih (by omega)

theorem or_two_pow {c m j : Nat} (h : j < m) : 2 ^ m * c ||| 2 ^ j = 2 ^ m * c + 2 ^ j :=
  (Nat.two_pow_add_eq_or_of_lt (Nat.pow_lt_pow_right (by decide) h) c).symm

/-- The last `n` rounds, when the bits accepted so far are multiples of the last
bit tested. -/
theorem refineLoops_eq (fuel c : Nat) (hT : 2 ^ (d + 10) ≤ T) (hn : n ≤ 9) (hfuel : n < fuel)
    (hq : q = (T - 2 ^ (d + 10)) / 2 ^ (d + 1)) :
    refineLoops (fun k => T < k) (2 ^ (d + 10)) fuel (2 ^ (d + n)) (2 ^ (d + n + 1) * c) =
      some (2 ^ (d + n + 1) * c + 2 ^ (d + 1) * bitsUpTo q n) := by
  have hend : 2 ^ (d + 10) >>> 10 = 2 ^ d := by
    rw [Nat.shiftRight_eq_div_pow, pow_add, Nat.mul_div_cancel _ (Nat.two_pow_pos 10)]
  obtain ⟨fuel, rfl⟩ := Nat.exists_eq_succ_of_ne_zero (Nat.ne_zero_of_lt hfuel)
  induction n generalizing fuel c with
  | zero =>
    rw [refineLoops, hend, Nat.add_zero, if_pos rfl]
    rfl
  | succ n ih =>
    obtain ⟨fuel, rfl⟩ := Nat.exists_eq_succ_of_ne_zero (Nat.ne_zero_of_lt (Nat.lt_of_succ_lt_succ hfuel))
    have hshift : 2 ^ (d + (n + 1)) >>> 1 = 2 ^ (d + n) := by
      rw [Nat.shiftRight_eq_div_pow, ← Nat.add_assoc, pow_succ, pow_one, Nat.mul_div_cancel _ (by decide)]
    have hne : ¬ 2 ^ (d + (n + 1)) = 2 ^ d := fun h => by
      have := Nat.pow_right_injective (Nat.le_refl 2) h
      omega
    have hor : 2 ^ (d + 10) ||| 2 ^ (d + (n + 1)) = 2 ^ (d + 10) + 2 ^ (d + (n + 1)) := by
      simpa using or_two_pow (c := 1) (show d + (n + 1) < d + 10 by omega)
    -- whether the bit is taken depends on the limit only
    have htest : T < 2 ^ (d + 10) + 2 ^ (d + (n + 1)) ↔ ¬ 2 ^ n ≤ q := by
      rw [hq, Nat.le_div_iff_mul_le (Nat.two_pow_pos _), ← pow_add, show n + (d + 1) = d + (n + 1) by omega]
      omega
    rw [refineLoops, hend, if_neg hne, hshift, hor, bitsUpTo]
    simp only [htest, decide_not, Bool.not_eq_true', decide_eq_false_iff_not]
    by_cases hbit : 2 ^ n ≤ q
    · rw [if_neg (not_not.mpr hbit), if_pos hbit, or_two_pow (by omega),
        show 2 ^ (d + (n + 1) + 1) * c + 2 ^ (d + (n + 1)) = 2 ^ (d + n + 1) * (2 * c + 1) by ring,
        ih _ (by omega) fuel (by omega)]
      congr 1
      ring
    · rw [if_pos hbit, if_neg hbit, show 2 ^ (d + (n + 1) + 1) * c = 2 ^ (d + n + 1) * (2 * c) by ring,
        ih _ (by omega) fuel (by omega), Nat.zero_add]

/-- With a limit of `T` loops the result is at most the limit, and short of it by
less than the last bit tested, exactly when `q + 1` is a power of two. -/
theorem calibration_exact_iff (hlo : 2 ^ 10 ≤ T) (hhi : T < 2 ^ 31) {highBit unit fuel : Nat}
    (hhigh : highBit = 2 ^ T.log2) (hunit : unit = highBit >>> 9) (hfuel : 32 ≤ fuel) :
    ∃ loopsPerTick, timerCalibrate (fun k => T < k) fuel = some (.ok loopsPerTick) ∧
      (loopsPerTick ≤ T ∧ T < loopsPerTick + unit ↔ ∃ j, (T - highBit) / unit + 1 = 2 ^ j) := by
  have hT : T ≠ 0 := by omega
  obtain ⟨d, hd⟩ := Nat.exists_eq_add_of_le' ((Nat.le_log2 hT).mpr hlo)
  have hd31 := (Nat.log2_lt hT).mpr hhi
  have hself := Nat.log2_self_le hT
  have hlt := Nat.lt_log2_self (n := T)
  rw [hd] at hhigh hself hlt hd31
  have hunit' : unit = 2 ^ (d + 1) := by
    rw [hunit, hhigh, Nat.shiftRight_eq_div_pow, show d + 10 = d + 1 + 9 by omega, pow_add,
      Nat.mul_div_cancel _ (Nat.two_pow_pos 9)]
  have hhalf : 2 ^ (d + 10) >>> 1 = 2 ^ (d + 9) := by
    rw [Nat.shiftRight_eq_div_pow, pow_succ, pow_one, Nat.mul_div_cancel _ (by decide)]
  have hq : (T - 2 ^ (d + 10)) / 2 ^ (d + 1) < 2 ^ 9 := by
    rw [Nat.div_lt_iff_lt_mul (Nat.two_pow_pos _), ← pow_add, show 9 + (d + 1) = d + 10 by omega]
    rw [pow_succ] at hlt
    omega
  obtain ⟨k, hbits, hqk, hkq⟩ := bitsUpTo_eq hq
  refine ⟨2 ^ (d + 10) + 2 ^ (d + 1) * bitsUpTo ((T - 2 ^ (d + 10)) / 2 ^ (d + 1)) 9, ?_, ?_⟩
  · have hdouble := doubleLoops_eq (n := 10) (d := d) (T := T) fuel (by omega) (by rwa [Nat.add_comm])
      (by rwa [Nat.add_comm 10 d]) (by omega)
    have hrefine := refineLoops_eq (n := 9) fuel 1 hself (by decide) (by omega) rfl
    rw [timerCalibrate, show 1 <<< 10 = 2 ^ 10 from rfl, hdouble]
    simp only [Nat.add_comm 10 d, hhalf]
    rw [Nat.mul_one] at hrefine
    rw [hrefine, Option.map_some]
  · have hle := Nat.le_div_iff_mul_le (x := bitsUpTo ((T - 2 ^ (d + 10)) / 2 ^ (d + 1)) 9) (y := T - 2 ^ (d + 10))
      (Nat.two_pow_pos (d + 1))
    have hless := (Nat.div_lt_iff_lt_mul (Nat.two_pow_pos (d + 1))).mp hqk
    rw [hhigh, hunit']
    rw [← hbits, Nat.succ_mul] at hless
    generalize (T - 2 ^ (d + 10)) / 2 ^ (d + 1) = q at *
    rw [Nat.mul_comm] at hle hless
    refine ⟨fun h => ⟨k, by omega⟩, fun ⟨j, hj⟩ => ⟨?_, by omega⟩⟩
    -- `2 ^ k` is the one power of two from `q + 1` to `2 * q + 1`
    have hkj : k < j + 1 := (Nat.pow_lt_pow_iff_right (by decide : 1 < 2)).mp (by rw [pow_succ]; omega)
    have hpow : 2 ^ k ≤ 2 ^ j := Nat.pow_le_pow_right (by decide) (by omega)
    have := hle.mp (by omega)
    omega

/-- Of the bits below 1024 the last two are accepted. -/
theorem calibration_exact_1030 : 2 ^ 10 ≤ 1030 ∧ ∃ loopsPerTick,
    timerCalibrate (fun k => 1030 < k) 32 = some (.ok loopsPerTick) ∧
      (loopsPerTick ≤ 1030 ∧ 1030 < loopsPerTick + 2 ↔ ∃ j, (1030 - 1024) / 2 + 1 = 2 ^ j) :=
  ⟨by decide, calibration_exact_iff (by decide) (by decide) (by decide) (by decide) (by decide)⟩

/-- 1028 loops are not too many and 1030 are. -/
theorem calibration_overshoots : timerCalibrate (fun k => 1028 < k) 32 = some (.ok 1030) := by
  decide

end Pintos.Timer
