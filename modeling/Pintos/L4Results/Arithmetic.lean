import Pintos.L2Code.Arithmetic

/-!
# Division and remainder of 64-bit integers

* `division_exact`: quotients are exact, and `divl` never traps.
* `remainder_iff`: remainders are exact where they fit in the 32 bits that the
  helper functions return.
-/
namespace Pintos.Arith
open BitVec

/-! ## Leading zeros -/

/-- `nx.1` leading bits have been shifted out, and what is left is at least
`2 ^ m`. -/
structure Shifted (x : BitVec 32) (m : Nat) (nx : Nat × BitVec 32) : Prop where
  value : nx.2.toNat = x.toNat * 2 ^ nx.1
  ge : 2 ^ m ≤ nx.2.toNat

variable {x : BitVec 32} {v e : Nat} {n d : BitVec 64}

theorem toNat_shiftLeft_of_lt {k : Nat} (h : x.toNat * 2 ^ k < 2 ^ 32) :
    (x <<< k).toNat = x.toNat * 2 ^ k := by
  rw [toNat_shiftLeft, Nat.shiftLeft_eq, Nat.mod_eq_of_lt h]

theorem Shifted.step {m : Nat} {nx : Nat × BitVec 32} (h : Shifted x m nx) (limit : BitVec 32) (k : Nat)
    (hk : m + 2 * k = 32) (hlimit : limit.toNat + 1 = 2 ^ (m + k)) : Shifted x (m + k) (nlzStep limit k nx) := by
  unfold nlzStep
  by_cases hle : nx.2 ≤ limit
  · have hle' : nx.2.toNat ≤ limit.toNat := BitVec.le_def.mp hle
    have hpow : 2 ^ (m + k) * 2 ^ k = 2 ^ 32 := by rw [← Nat.pow_add, show m + k + k = 32 by omega]
    have hlt : nx.2.toNat * 2 ^ k < 2 ^ 32 := by
      rw [← hpow]
      exact Nat.mul_lt_mul_of_pos_right (by omega) (Nat.two_pow_pos k)
    rw [if_pos hle]
    refine ⟨?_, ?_⟩
    · rw [toNat_shiftLeft_of_lt hlt, h.value, Nat.mul_assoc, ← Nat.pow_add]
    · rw [toNat_shiftLeft_of_lt hlt, Nat.pow_add]
      exact Nat.mul_le_mul_right _ h.ge
  · have hgt : limit.toNat < nx.2.toNat := BitVec.lt_def.mp (BitVec.not_le.mp hle)
    rw [if_neg hle]
    exact ⟨h.value, by omega⟩

/-- `nlz` shifts the highest one to the top. -/
theorem nlz_spec (hx : 0 < x.toNat) :
    2 ^ 31 ≤ x.toNat * 2 ^ nlz x ∧ x.toNat * 2 ^ nlz x < 2 ^ 32 ∧ nlz x ≤ 31 := by
  have h0 : Shifted x 0 (0, x) := ⟨(Nat.mul_one _).symm, hx⟩
  have h16 := h0.step 0x0000FFFF 16 rfl rfl
  have h24 := h16.step 0x00FFFFFF 8 rfl rfl
  have h28 := h24.step 0x0FFFFFFF 4 rfl rfl
  have h30 := h28.step 0x3FFFFFFF 2 rfl rfl
  unfold nlz
  generalize nlzStep 0x3FFFFFFF 2 _ = nx at h30
  obtain ⟨hval, hge⟩ := h30
  have hlt : nx.2.toNat < 2 ^ 32 := nx.2.isLt
  have hbound : ∀ k, x.toNat * 2 ^ k < 2 ^ 32 → k ≤ 31 := by
    intro k hk
    by_contra hno
    have hpow : 2 ^ 32 ≤ 2 ^ k := Nat.pow_le_pow_right (by decide) (by omega)
    have := Nat.mul_le_mul hx hpow
    omega
  dsimp only
  by_cases hle : nx.2 ≤ 0x7FFFFFFF
  · have hle' : nx.2.toNat ≤ 0x7FFFFFFF := BitVec.le_def.mp hle
    have hsum : x.toNat * 2 ^ (nx.1 + 1) = nx.2.toNat * 2 := by rw [Nat.pow_succ, ← Nat.mul_assoc, ← hval]
    rw [if_pos hle, hsum]
    refine ⟨by omega, by omega, hbound _ (by omega)⟩
  · have hgt : 0x7FFFFFFF < nx.2.toNat := BitVec.lt_def.mp (BitVec.not_le.mp hle)
    rw [if_neg hle, ← hval]
    exact ⟨by omega, hlt, hbound _ (by omega)⟩

/-! ## The estimate of a quotient -/

/-- A divisor `d = v * r + e` is cut to `v * r`. The quotient does not get
smaller. -/
theorem le_estimate {n r : Nat} (hv : 0 < v * r) : n / (v * r + e) ≤ n / (v * r) :=
  Nat.div_le_div_left (Nat.le_add_right _ _) hv

/-- It gets larger by at most one if what is cut off is small. -/
theorem estimate_le {n r : Nat} (hv : 0 < v * r) (he : (n / (v * r + e) + 1) * e ≤ v * r) :
    n / (v * r) ≤ n / (v * r + e) + 1 := by
  generalize ht : n / (v * r + e) = t at he ⊢
  have hlt : n < (t + 1) * (v * r + e) := by
    have := Nat.lt_div_mul_add (a := n) (show 0 < v * r + e by omega)
    rw [ht] at this
    rw [Nat.add_mul, Nat.one_mul]
    exact this
  refine Nat.le_of_lt_succ ((Nat.div_lt_iff_lt_mul hv).mpr ?_)
  calc n < (t + 1) * (v * r + e) := hlt
    _ = (t + 1) * (v * r) + (t + 1) * e := Nat.mul_add _ _ _
    _ ≤ (t + 1) * (v * r) + v * r := Nat.add_le_add_left he _
    _ = (t + 1).succ * (v * r) := (Nat.succ_mul _ _).symm

/-- The bits cut off are small: the divisor is normalised with a shift by `s`. -/
theorem cut_small {n s : Nat} (hn : n < 2 ^ 64) (hs : s ≤ 31) (hv : 2 ^ 31 ≤ v) (he : e < 2 ^ (32 - s)) :
    (n / (v * 2 ^ (32 - s) + e) + 1) * e ≤ v * 2 ^ (32 - s) := by
  have hdiv : 2 ^ (63 - s) ≤ v * 2 ^ (32 - s) := by
    have hpow : 2 ^ (63 - s) = 2 ^ 31 * 2 ^ (32 - s) := by rw [← Nat.pow_add, show 31 + (32 - s) = 63 - s by omega]
    rw [hpow]
    exact Nat.mul_le_mul_right _ hv
  -- the quotient has at most `s + 1` bits
  have hq : n / (v * 2 ^ (32 - s) + e) + 1 ≤ 2 ^ (s + 1) := by
    have hpow : 2 ^ 64 = 2 ^ (s + 1) * 2 ^ (63 - s) := by rw [← Nat.pow_add, show s + 1 + (63 - s) = 64 by omega]
    have hpos : 0 < v * 2 ^ (32 - s) + e := by
      have := Nat.two_pow_pos (63 - s)
      omega
    refine (Nat.div_lt_iff_lt_mul hpos).mpr ?_
    calc n < 2 ^ (s + 1) * 2 ^ (63 - s) := by rw [← hpow]; exact hn
      _ ≤ 2 ^ (s + 1) * (v * 2 ^ (32 - s) + e) := Nat.mul_le_mul_left _ (by omega)
  have hprod : (n / (v * 2 ^ (32 - s) + e) + 1) * e ≤ 2 ^ (s + 1) * (2 ^ (32 - s) - 1) :=
    Nat.mul_le_mul hq (by omega)
  refine Nat.le_trans hprod (Nat.le_trans ?_ hdiv)
  rcases Nat.lt_or_eq_of_le hs with hlt | rfl
  · -- 2 ^ 33 is at most 2 ^ (63 - s)
    have hone : 2 ^ (s + 1) * (2 ^ (32 - s) - 1) ≤ 2 ^ (s + 1) * 2 ^ (32 - s) := Nat.mul_le_mul_left _ (Nat.sub_le _ _)
    have hpow : 2 ^ (s + 1) * 2 ^ (32 - s) = 2 ^ 33 := by rw [← Nat.pow_add, show s + 1 + (32 - s) = 33 by omega]
    have hmono : 2 ^ 33 ≤ 2 ^ (63 - s) := Nat.pow_le_pow_right (by decide) (by omega)
    omega
  · decide

/-! ## Quotients -/

theorem divl_of_lt {d : BitVec 32} (hd : 0 < d.toNat) (hq : n.toNat / d.toNat < 2 ^ 32) :
    ∃ q, divl n d = some q ∧ q.toNat = n.toNat / d.toNat := by
  have hne : d ≠ 0 := by
    rintro rfl
    exact Nat.lt_irrefl _ hd
  have hfits : ¬(d = 0 ∨ 2 ^ 32 ≤ n.toNat / d.toNat) := by
    rintro (h | h)
    · exact hne h
    · omega
  refine ⟨_, if_neg hfits, ?_⟩
  rw [toNat_ofNat, Nat.mod_eq_of_lt hq]

/-- A divisor of one word: long division with two digits. -/
theorem udiv64_word (hd : 0 < d.toNat) (hword : d >>> 32 = 0) :
    ∃ q, udiv64 n d = some q ∧ q.toNat = n.toNat / d.toNat := by
  have hn : n.toNat < 2 ^ 64 := n.isLt
  have hdlt : d.toNat < 2 ^ 32 := by
    have h := congrArg BitVec.toNat hword
    rw [toNat_ushiftRight, Nat.shiftRight_eq_div_pow] at h
    exact (Nat.div_eq_zero_iff_lt (by decide)).mp h
  have hd0 : (d.setWidth 32).toNat = d.toNat := by rw [toNat_setWidth, Nat.mod_eq_of_lt hdlt]
  have hn0 : (n.setWidth 32).toNat = n.toNat % 2 ^ 32 := toNat_setWidth _ _
  have hn1 : ((n >>> 32).setWidth 32).toNat = n.toNat / 2 ^ 32 := by
    rw [toNat_setWidth, toNat_ushiftRight, Nat.shiftRight_eq_div_pow, Nat.mod_eq_of_lt (by omega)]
  have hb : ((1 : BitVec 64) <<< 32).toNat = 2 ^ 32 := rfl
  have hrem : n.toNat / 2 ^ 32 % d.toNat < d.toNat := Nat.mod_lt _ hd
  have hpart : (((1 : BitVec 64) <<< 32) * ((n >>> 32).setWidth 32 % d.setWidth 32).setWidth 64
      + (n.setWidth 32).setWidth 64).toNat = 2 ^ 32 * (n.toNat / 2 ^ 32 % d.toNat) + n.toNat % 2 ^ 32 := by
    simp only [toNat_add, toNat_mul, toNat_setWidth, toNat_umod, hn1, hd0, hn0, hb]
    omega
  have hwhole : n.toNat / d.toNat = (2 ^ 32 * (n.toNat / 2 ^ 32 % d.toNat) + n.toNat % 2 ^ 32) / d.toNat
      + 2 ^ 32 * (n.toNat / 2 ^ 32 / d.toNat) := by
    have h1 := Nat.div_add_mod n.toNat (2 ^ 32)
    have h2 := Nat.div_add_mod (n.toNat / 2 ^ 32) d.toNat
    have hsum : n.toNat = 2 ^ 32 * (n.toNat / 2 ^ 32 % d.toNat) + n.toNat % 2 ^ 32
        + d.toNat * (2 ^ 32 * (n.toNat / 2 ^ 32 / d.toNat)) := by
      calc n.toNat
        _ = 2 ^ 32 * (d.toNat * (n.toNat / 2 ^ 32 / d.toNat) + n.toNat / 2 ^ 32 % d.toNat) + n.toNat % 2 ^ 32 := by
            rw [h2, h1]
        _ = _ := by ring
    rw [← Nat.add_mul_div_left _ _ hd, ← hsum]
  have hfits : (2 ^ 32 * (n.toNat / 2 ^ 32 % d.toNat) + n.toNat % 2 ^ 32) / d.toNat < 2 ^ 32 := by
    refine (Nat.div_lt_iff_lt_mul hd).mpr ?_
    omega
  obtain ⟨q, hq, hqval⟩ := divl_of_lt
    (n := ((1 : BitVec 64) <<< 32) * ((n >>> 32).setWidth 32 % d.setWidth 32).setWidth 64
      + (n.setWidth 32).setWidth 64)
    (d := d.setWidth 32) (by rw [hd0]; exact hd) (by rw [hpart, hd0]; exact hfits)
  rw [hpart, hd0] at hqval
  refine ⟨q.setWidth 64 + ((1 : BitVec 64) <<< 32) * ((n >>> 32).setWidth 32 / d.setWidth 32).setWidth 64, ?_, ?_⟩
  · rw [udiv64, if_pos hword]
    simp only [hq]
    rfl
  · have hle : n.toNat / d.toNat ≤ n.toNat := Nat.div_le_self _ _
    have hdig : n.toNat / 2 ^ 32 / d.toNat ≤ n.toNat / 2 ^ 32 := Nat.div_le_self _ _
    rw [hwhole, ← hqval] at hle ⊢
    simp only [toNat_add, toNat_mul, toNat_setWidth, toNat_udiv, hn1, hd0, hb]
    omega

/-- The shift by `nlz` loses no bit of the divisor, and its high word starts
with a one. -/
theorem normalised (hd : d >>> 32 ≠ 0) :
    ∃ s ≤ 31, nlz ((d >>> 32).setWidth 32) = s ∧
      (((d <<< s) >>> 32).setWidth 32).toNat = d.toNat / 2 ^ (32 - s) ∧ 2 ^ 31 ≤ d.toNat / 2 ^ (32 - s) := by
  have hdlt : d.toNat < 2 ^ 64 := d.isLt
  have hd1 : ((d >>> 32).setWidth 32).toNat = d.toNat / 2 ^ 32 := by
    rw [toNat_setWidth, toNat_ushiftRight, Nat.shiftRight_eq_div_pow, Nat.mod_eq_of_lt (by omega)]
  have hpos : 0 < ((d >>> 32).setWidth 32).toNat := by
    rw [hd1]
    refine Nat.pos_of_ne_zero fun h0 => hd (eq_of_toNat_eq ?_)
    rw [toNat_ushiftRight, Nat.shiftRight_eq_div_pow, h0]
    rfl
  obtain ⟨hge, hlt, hs⟩ := nlz_spec hpos
  rw [hd1] at hge hlt
  generalize hsdef : nlz ((d >>> 32).setWidth 32) = s at hge hlt hs
  have hpow : 2 ^ 32 = 2 ^ (32 - s) * 2 ^ s := by rw [← Nat.pow_add, show 32 - s + s = 32 by omega]
  -- the high word is below 2 ^ (32 - s), so the whole divisor is below 2 ^ (64 - s)
  have hhigh : d.toNat / 2 ^ 32 < 2 ^ (32 - s) := by
    exact Nat.lt_of_mul_lt_mul_right (Nat.lt_of_lt_of_eq hlt hpow)
  have hnowrap : d.toNat * 2 ^ s < 2 ^ 64 := by
    have hbelow : d.toNat < 2 ^ (32 - s) * 2 ^ 32 := (Nat.div_lt_iff_lt_mul (by decide)).mp hhigh
    calc d.toNat * 2 ^ s < 2 ^ (32 - s) * 2 ^ 32 * 2 ^ s := Nat.mul_lt_mul_of_pos_right hbelow (Nat.two_pow_pos s)
      _ = 2 ^ (32 - s) * 2 ^ s * 2 ^ 32 := by ring
      _ = 2 ^ 32 * 2 ^ 32 := by rw [← hpow]
  have hval : d.toNat * 2 ^ s / 2 ^ 32 = d.toNat / 2 ^ (32 - s) := by
    conv_lhs => rw [hpow]
    exact Nat.mul_div_mul_right _ _ (Nat.two_pow_pos s)
  refine ⟨s, hs, rfl, ?_, ?_⟩
  · rw [toNat_setWidth, toNat_ushiftRight, toNat_shiftLeft, Nat.shiftLeft_eq,
      Nat.mod_eq_of_lt hnowrap, Nat.shiftRight_eq_div_pow, Nat.mod_eq_of_lt (by omega), hval]
  · rw [← hval]
    refine (Nat.le_div_iff_mul_le (by decide)).mpr ?_
    calc 2 ^ 31 * 2 ^ 32 ≤ d.toNat / 2 ^ 32 * 2 ^ s * 2 ^ 32 := Nat.mul_le_mul_right _ hge
      _ = d.toNat / 2 ^ 32 * 2 ^ 32 * 2 ^ s := by ring
      _ ≤ d.toNat * 2 ^ s := Nat.mul_le_mul_right _ (Nat.div_mul_le_self _ _)

/-- A divisor of two words: the estimate is the quotient or one more, and the
test at the end tells which. -/
theorem udiv64_wide (hd : d >>> 32 ≠ 0) :
    ∃ q, udiv64 n d = some q ∧ q.toNat = n.toNat / d.toNat := by
  have hn : n.toNat < 2 ^ 64 := n.isLt
  by_cases hlt : n < d
  · refine ⟨0, by rw [udiv64, if_neg hd, if_pos hlt], ?_⟩
    rw [Nat.div_eq_of_lt (BitVec.lt_def.mp hlt)]
    rfl
  have hle : d.toNat ≤ n.toNat := BitVec.le_def.mp (BitVec.not_lt.mp hlt)
  obtain ⟨s, hs, hnlz, hv, hvge⟩ := normalised hd
  generalize hvdef : d.toNat / 2 ^ (32 - s) = v at hv hvge
  have hsplit : d.toNat = v * 2 ^ (32 - s) + d.toNat % 2 ^ (32 - s) := by
    rw [← hvdef, Nat.mul_comm]
    exact (Nat.div_add_mod _ _).symm
  have hvpos : 0 < v * 2 ^ (32 - s) := Nat.mul_pos (by omega) (Nat.two_pow_pos _)
  have hsmall := cut_small hn hs hvge (Nat.mod_lt d.toNat (Nat.two_pow_pos (32 - s)))
  have hlow := le_estimate (n := n.toNat) (e := d.toNat % 2 ^ (32 - s)) hvpos
  have hhigh := estimate_le hvpos hsmall
  rw [← hsplit] at hlow hhigh
  have hhalf : (n >>> 1).toNat = n.toNat / 2 := by
    rw [toNat_ushiftRight, Nat.shiftRight_eq_div_pow, Nat.pow_one]
  have hfits : n.toNat / 2 / v < 2 ^ 32 := by
    refine (Nat.div_lt_iff_lt_mul (by omega)).mpr ?_
    have := Nat.mul_le_mul_left (2 ^ 32) hvge
    omega
  obtain ⟨q32, hq32, hqval⟩ := divl_of_lt (n := n >>> 1) (d := ((d <<< s) >>> 32).setWidth 32)
    (by rw [hv]; omega) (by rw [hhalf, hv]; exact hfits)
  rw [hhalf, hv] at hqval
  -- the estimate: the divisor's low bits are ignored
  have hest : ((q32 >>> (31 - s)).setWidth 64).toNat = n.toNat / (v * 2 ^ (32 - s)) := by
    have hpow : 2 ^ (32 - s) = 2 * 2 ^ (31 - s) := by rw [← Nat.pow_succ', show (31 - s).succ = 32 - s by omega]
    have hq : q32.toNat / 2 ^ (31 - s) ≤ q32.toNat := Nat.div_le_self _ _
    have hq' : q32.toNat < 2 ^ 32 := q32.isLt
    have hprod : 2 * (v * 2 ^ (31 - s)) = v * (2 * 2 ^ (31 - s)) := by ring
    rw [toNat_setWidth, toNat_ushiftRight, Nat.shiftRight_eq_div_pow, Nat.mod_eq_of_lt (by omega), hqval,
      Nat.div_div_eq_div_mul, Nat.div_div_eq_div_mul, hpow, hprod]
  generalize hqdef : ((q32 >>> (31 - s)).setWidth 64 : BitVec 64) = q at hest
  rw [← hest] at hlow hhigh
  have hone : 1 ≤ n.toNat / d.toNat := (Nat.one_le_div_iff (by omega)).mpr hle
  have hqlt : q.toNat < 2 ^ 64 := q.isLt
  have hpred : (q - 1).toNat = q.toNat - 1 := by
    have h1 : (1 : BitVec 64).toNat = 1 := rfl
    rw [toNat_sub, h1]
    omega
  have hprod : (q.toNat - 1) * d.toNat ≤ n.toNat :=
    Nat.le_trans (Nat.mul_le_mul_right _ (by omega)) (Nat.div_mul_le_self _ _)
  have hdiff : (n - (q - 1) * d).toNat = n.toNat - (q.toNat - 1) * d.toNat := by
    have hmul : ((q - 1) * d).toNat = (q.toNat - 1) * d.toNat := by
      rw [toNat_mul, hpred, Nat.mod_eq_of_lt (Nat.lt_of_le_of_lt hprod hn)]
    rw [toNat_sub, hmul]
    omega
  refine ⟨if n - (q - 1) * d < d then q - 1 else q, ?_, ?_⟩
  · rw [udiv64, if_neg hd, if_neg hlt]
    simp only [hnlz, hq32, Option.bind_eq_bind, Option.bind_some, hqdef]
    rfl
  · have hdpos : 0 < d.toNat := by omega
    by_cases hfin : n - (q - 1) * d < d
    · have hfin' : n.toNat - (q.toNat - 1) * d.toNat < d.toNat := by
        rw [← hdiff]
        exact BitVec.lt_def.mp hfin
      rw [if_pos hfin, hpred]
      refine Nat.le_antisymm (by omega) (Nat.le_of_lt_succ ((Nat.div_lt_iff_lt_mul hdpos).mpr ?_))
      rw [Nat.succ_mul]
      omega
    · have hfin' : d.toNat ≤ n.toNat - (q.toNat - 1) * d.toNat := by
        rw [← hdiff]
        exact BitVec.le_def.mp (BitVec.not_lt.mp hfin)
      rw [if_neg hfin]
      refine Nat.le_antisymm ((Nat.le_div_iff_mul_le hdpos).mpr ?_) hlow
      have hsucc : q.toNat = q.toNat - 1 + 1 := by omega
      rw [hsucc, Nat.succ_mul]
      omega

/-- `udiv64` is the quotient. -/
theorem udiv64_eq (hd : d ≠ 0) : udiv64 n d = some (n / d) := by
  have hpos : 0 < d.toNat := Nat.pos_of_ne_zero fun h0 => hd (eq_of_toNat_eq h0)
  have hex : ∃ q, udiv64 n d = some q ∧ q.toNat = n.toNat / d.toNat := by
    by_cases hword : d >>> 32 = 0
    · exact udiv64_word hpos hword
    · exact udiv64_wide hword
  obtain ⟨q, hq, hval⟩ := hex
  rw [hq]
  congr 1
  apply eq_of_toNat_eq
  rw [hval, toNat_udiv]

/-- `sdiv64` is the signed quotient. -/
theorem sdiv64_eq (hd : d ≠ 0) : sdiv64 n d = some (n.sdiv d) := by
  have hneg : -d ≠ 0 := by
    intro h0
    exact hd (neg_eq_zero_iff.mp h0)
  have habs : ∀ x : BitVec 64, (if 0 ≤ x.toInt then x else -x) = if x.msb then -x else x := by
    intro x
    rw [msb_eq_toInt]
    by_cases hx : 0 ≤ x.toInt
    · rw [if_pos hx, decide_eq_false (by omega)]
      rfl
    · rw [if_neg hx, decide_eq_true (by omega)]
      rfl
  have hpos : ∀ m, udiv64 m d = some (m / d) := fun m => udiv64_eq hd
  have hopp : ∀ m, udiv64 m (-d) = some (m / -d) := fun m => udiv64_eq hneg
  rw [sdiv64]
  simp only [habs, ← msb_eq_toInt]
  rw [sdiv_eq]
  cases n.msb <;> cases d.msb <;> simp [hpos, hopp]

/-- Every quotient is exact, and no call to `divl` traps. The signed quotient
is taken modulo `2 ^ 64`, which only changes it for the one pair that
overflows. -/
theorem division_exact (n d : BitVec 64) (hd : d ≠ 0) :
    (∃ q, udiv64 n d = some q ∧ q.toNat = n.toNat / d.toNat) ∧
      ∃ q, sdiv64 n d = some q ∧ q = BitVec.ofInt 64 (n.toInt.tdiv d.toInt) ∧
        (¬(n.toInt = -2 ^ 63 ∧ d.toInt = -1) → q.toInt = n.toInt.tdiv d.toInt) := by
  refine ⟨⟨n / d, udiv64_eq hd, toNat_udiv⟩, n.sdiv d, sdiv64_eq hd, ?_, ?_⟩
  · apply eq_of_toInt_eq
    rw [toInt_sdiv, toInt_ofInt]
  · intro hover
    apply toInt_sdiv_of_ne_or_ne
    by_contra hboth
    obtain ⟨hn, hd1⟩ := not_or.mp hboth
    rw [Classical.not_not] at hn hd1
    exact hover ⟨by rw [hn]; rfl, by rw [hd1]; rfl⟩

/-- The smallest number divided by one of two words: the quotient is estimated,
and the signs differ. -/
theorem division_exact_min : (0x300000001 : BitVec 64) ≠ 0 ∧
    ∃ q, sdiv64 (BitVec.ofInt 64 (-2 ^ 63)) 0x300000001 = some q ∧ q.toInt = -715827882 := by
  refine ⟨by decide, ?_⟩
  obtain ⟨q, hq, -, hval⟩ := (division_exact (BitVec.ofInt 64 (-2 ^ 63)) 0x300000001 (by decide)).2
  exact ⟨q, hq, (hval (by decide)).trans (by decide)⟩

/-! ## Remainders -/

/-- What `__umoddi3` should return. -/
def UmodExact (n d : BitVec 64) : Prop :=
  ∃ r, umoddi3 n d = some r ∧ r.toNat = n.toNat - d.toNat * (n.toNat / d.toNat)

/-- What `__moddi3` should return: a remainder with the sign of `n`. -/
def ModExact (n d : BitVec 64) : Prop :=
  ∃ r, moddi3 n d = some r ∧ r.toInt = n.toInt - d.toInt * n.toInt.tdiv d.toInt ∧
    (0 ≤ n.toInt → 0 ≤ r.toInt) ∧ (n.toInt ≤ 0 → r.toInt ≤ 0)

/-- `n` lies above a multiple of `d`, by less than `d` and less than `b`. -/
def Above (b n d : Nat) : Prop := ∃ k, k * d ≤ n ∧ n < k * d + d ∧ n < k * d + b

theorem above_iff {b n d : Nat} (hd : 0 < d) : Above b n d ↔ n % d < b := by
  have hdm := Nat.div_add_mod' n d
  refine ⟨?_, ?_⟩
  · rintro ⟨k, hle, hlt, hb⟩
    have hk : n / d = k := by
      refine Nat.div_eq_of_lt_le hle ?_
      rw [Nat.succ_mul]
      exact hlt
    rw [hk] at hdm
    omega
  · intro h
    have hmod : n % d < d := Nat.mod_lt _ hd
    exact ⟨n / d, by omega, by omega, by omega⟩

theorem umoddi3_eq (hd : d ≠ 0) :
    ∃ r, umoddi3 n d = some r ∧ r.toNat = n.toNat % d.toNat % 2 ^ 32 := by
  have hpos : 0 < d.toNat := Nat.pos_of_ne_zero fun h0 => hd (eq_of_toNat_eq h0)
  have hrem : n - d * (n / d) = n % d := by
    apply eq_of_toNat_eq
    have hmul : (d * (n / d)).toNat = d.toNat * (n.toNat / d.toNat) := by
      rw [toNat_mul, toNat_udiv]
      exact Nat.mod_eq_of_lt (Nat.lt_of_le_of_lt (Nat.mul_div_le _ _) n.isLt)
    have hdm := Nat.div_add_mod n.toNat d.toNat
    have hn := n.isLt
    rw [toNat_sub, hmul, toNat_umod]
    omega
  refine ⟨((n % d).setWidth 32).setWidth 64, ?_, ?_⟩
  · rw [umoddi3, umod64, udiv64_eq hd]
    simp only [Option.bind_eq_bind, Option.bind_some, Option.pure_def, hrem]
  · rw [toNat_setWidth, toNat_setWidth, toNat_umod]
    omega

theorem umodExact_iff (hd : d ≠ 0) : UmodExact n d ↔ Above (2 ^ 32) n.toNat d.toNat := by
  have hpos : 0 < d.toNat := Nat.pos_of_ne_zero fun h0 => hd (eq_of_toNat_eq h0)
  obtain ⟨r, hr, hval⟩ := umoddi3_eq (n := n) hd
  have hdm := Nat.div_add_mod n.toNat d.toNat
  rw [above_iff hpos]
  refine ⟨?_, ?_⟩
  · rintro ⟨r', hr', hval'⟩
    obtain rfl := Option.mem_unique hr hr'
    omega
  · intro h
    exact ⟨r, hr, by omega⟩

theorem toInt_setWidth_word (x : BitVec 64) : (x.setWidth 32).toInt = x.toInt.bmod (2 ^ 32) := by
  rw [toInt_setWidth, toInt_eq_toNat_bmod x]
  exact (Int.bmod_bmod_of_dvd (show 2 ^ 32 ∣ 2 ^ 64 from ⟨2 ^ 32, rfl⟩)).symm

theorem moddi3_eq (hd : d ≠ 0) :
    ∃ r, moddi3 n d = some r ∧ r.toInt = (n.toInt.tmod d.toInt).bmod (2 ^ 32) := by
  refine ⟨((n - d * n.sdiv d).setWidth 32).signExtend 64, ?_, ?_⟩
  · rw [moddi3, smod64, sdiv64_eq hd]
    simp only [Option.bind_eq_bind, Option.bind_some, Option.pure_def]
  · have hrem : (n - d * n.sdiv d).toInt = (n.toInt.tmod d.toInt).bmod (2 ^ 64) := by
      rw [toInt_sub, toInt_mul, toInt_sdiv, Int.tmod_def]
      simp only [Int.mul_bmod_bmod, Int.sub_bmod_bmod]
    rw [toInt_signExtend_of_le (by decide), toInt_setWidth_word, hrem]
    exact Int.bmod_bmod_of_dvd ⟨2 ^ 32, rfl⟩

/-- The remainder of a negative number may be as low as `-2 ^ 31`. -/
def remLimit (n : Int) : Nat := if 0 ≤ n then 2 ^ 31 else 2 ^ 31 + 1

theorem bmod_tmod_iff {n d : Int} :
    (n.tmod d).bmod (2 ^ 32) = n.tmod d ↔ n.natAbs % d.natAbs < remLimit n := by
  have habs := Int.natAbs_tmod n d
  have hbmod : (n.tmod d).bmod (2 ^ 32) = n.tmod d ↔ -2 ^ 31 ≤ n.tmod d ∧ n.tmod d < 2 ^ 31 := by
    rw [Int.bmod_eq_iff (by decide), Int.sub_self]
    norm_num
  rw [hbmod, remLimit]
  by_cases hn : 0 ≤ n
  · have hsign := Int.tmod_nonneg d hn
    rw [if_pos hn]
    omega
  · have hsign : n.tmod d ≤ 0 := by
      have := Int.tmod_nonneg d (show 0 ≤ -n by omega)
      rw [Int.neg_tmod] at this
      omega
    rw [if_neg hn]
    omega

theorem modExact_iff (hd : d ≠ 0) :
    ModExact n d ↔ Above (remLimit n.toInt) n.toInt.natAbs d.toInt.natAbs := by
  have hpos : 0 < d.toInt.natAbs := by
    refine Int.natAbs_pos.mpr fun h0 => hd (eq_of_toInt_eq ?_)
    rw [h0]
    rfl
  obtain ⟨r, hr, hval⟩ := moddi3_eq (n := n) hd
  rw [above_iff hpos, ← bmod_tmod_iff, ← hval]
  refine ⟨?_, ?_⟩
  · rintro ⟨r', hr', hval', -⟩
    obtain rfl := Option.mem_unique hr hr'
    rw [hval', Int.tmod_def]
  · intro h
    refine ⟨r, hr, by rw [h, Int.tmod_def], fun hn => ?_, fun hn => ?_⟩
    · rw [h]
      exact Int.tmod_nonneg _ hn
    · have := Int.tmod_nonneg d.toInt (show 0 ≤ -n.toInt by omega)
      rw [Int.neg_tmod] at this
      omega

/-- Remainders are exact where they fit in the 32 bits that `umod64` and
`smod64` return: where the dividend is that close to a multiple of the divisor.
-/
theorem remainder_iff (n d : BitVec 64) (hd : d ≠ 0) :
    (UmodExact n d ↔ Above (2 ^ 32) n.toNat d.toNat) ∧
      (ModExact n d ↔ Above (remLimit n.toInt) n.toInt.natAbs d.toInt.natAbs) :=
  ⟨umodExact_iff hd, modExact_iff hd⟩

theorem remainder_iff_ten : (10 : BitVec 64) ≠ 0 ∧ UmodExact 12345678901 10 := by
  refine ⟨by decide, (remainder_iff 12345678901 10 (by decide)).1.mpr ⟨1234567890, ?_, ?_, ?_⟩⟩
  · decide
  · decide
  · decide

/-- `2 ^ 32` modulo `2 ^ 33` comes out as zero, and `2 ^ 31` modulo `2 ^ 32` as
a negative number. -/
theorem remainder_truncated :
    umoddi3 0x100000000 0x200000000 = some 0 ∧ ¬UmodExact 0x100000000 0x200000000 ∧
      moddi3 0x80000000 0x100000000 = some (-0x80000000) ∧ ¬ModExact 0x80000000 0x100000000 := by
  have hu : umoddi3 0x100000000 0x200000000 = some 0 := by decide
  have hs : moddi3 0x80000000 0x100000000 = some (-0x80000000) := by decide
  refine ⟨hu, ?_, hs, ?_⟩
  · rintro ⟨r, hr, hval⟩
    obtain rfl := Option.mem_unique hu hr
    exact absurd hval (by decide)
  · rintro ⟨r, hr, -, hsign, -⟩
    obtain rfl := Option.mem_unique hs hr
    exact absurd (hsign (by decide)) (by decide)

end Pintos.Arith
