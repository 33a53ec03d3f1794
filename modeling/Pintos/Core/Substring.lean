import Mathlib

/-!
# Longest common substrings

`EndsAt a b i j k`: the `k` elements of `a` up to position `i` are the `k`
elements of `b` up to position `j`. `endsAt_succ` is the recurrence by which a
table of the largest such `k` is filled, and `longest_of_endsAt` reads a longest
common substring off such a table.
-/
namespace Pintos.Core

open List

variable {α : Type} {a b r s : List α} {i j k m : Nat}

structure LongestCommon (a b r : List α) : Prop where
  left : r <:+: a
  right : r <:+: b
  longest : ∀ s, s <:+: a → s <:+: b → s.length ≤ r.length

def EndsAt (a b : List α) (i j k : Nat) : Prop :=
  k ≤ i + 1 ∧ k ≤ j + 1 ∧ ∀ m < k, ∃ c, a[i - m]? = some c ∧ b[j - m]? = some c

theorem endsAt_zero : EndsAt a b i j 0 := ⟨Nat.zero_le _, Nat.zero_le _, fun _ h => absurd h (Nat.not_lt_zero _)⟩

theorem EndsAt.mono (h : EndsAt a b i j k) (hm : m ≤ k) : EndsAt a b i j m :=
  ⟨hm.trans h.1, hm.trans h.2.1, fun n hn => h.2.2 n (Nat.lt_of_lt_of_le hn hm)⟩

theorem endsAt_succ : EndsAt a b i j (k + 1) ↔
    (∃ c, a[i]? = some c ∧ b[j]? = some c) ∧ (k = 0 ∨ 0 < i ∧ 0 < j ∧ EndsAt a b (i - 1) (j - 1) k) := by
  constructor
  · rintro ⟨hi, hj, h⟩
    refine ⟨h 0 (Nat.succ_pos k), ?_⟩
    rcases Nat.eq_zero_or_pos k with hk | hk
    · exact .inl hk
    · refine .inr ⟨by omega, by omega, by omega, by omega, fun m hm => ?_⟩
      have hnext := h (m + 1) (Nat.succ_lt_succ hm)
      rwa [show i - (m + 1) = i - 1 - m by omega, show j - (m + 1) = j - 1 - m by omega] at hnext
  · rintro ⟨h₀, hk | ⟨hi, hj, h⟩⟩
    · subst hk
      refine ⟨by omega, by omega, fun m hm => ?_⟩
      rwa [show m = 0 by omega]
    · obtain ⟨hki, hkj, hrest⟩ := h
      refine ⟨by omega, by omega, fun m hm => ?_⟩
      cases m with
      | zero => exact h₀
      | succ m =>
        have hprev := hrest m (Nat.lt_of_succ_lt_succ hm)
        rwa [show i - (m + 1) = i - 1 - m by omega, show j - (m + 1) = j - 1 - m by omega]

/-- The `k` elements as a list. -/
theorem EndsAt.slice (h : EndsAt a b i j k) : (a.drop (i + 1 - k)).take k = (b.drop (j + 1 - k)).take k := by
  obtain ⟨hi, hj, h⟩ := h
  refine ext_getElem? fun n => ?_
  rw [getElem?_take, getElem?_take]
  by_cases hn : n < k
  · rw [if_pos hn, if_pos hn, getElem?_drop, getElem?_drop]
    obtain ⟨c, ha, hb⟩ := h (k - 1 - n) (by omega)
    rw [show i + 1 - k + n = i - (k - 1 - n) by omega, show j + 1 - k + n = j - (k - 1 - n) by omega, ha, hb]
  · rw [if_neg hn, if_neg hn]

/-- Two occurrences of one list. -/
theorem endsAt_append (p q p' q' : List α) :
    EndsAt (p ++ s ++ q) (p' ++ s ++ q') (p.length + s.length - 1) (p'.length + s.length - 1) s.length := by
  have hget : ∀ (l l' : List α) m, m < s.length →
      (l ++ s ++ l')[l.length + s.length - 1 - m]? = s[s.length - 1 - m]? := by
    intro l l' m hm
    rw [append_assoc, getElem?_append_right (by omega), getElem?_append_left (by omega)]
    congr 1
    omega
  refine ⟨by omega, by omega, fun m hm => ?_⟩
  rw [hget p q m hm, hget p' q' m hm]
  exact ⟨_, getElem?_eq_getElem (by omega), getElem?_eq_getElem (by omega)⟩

theorem endsAt_of_infix (ha : s <:+: a) (hb : s <:+: b) : ∃ i j, EndsAt a b i j s.length := by
  obtain ⟨p, q, rfl⟩ := ha
  obtain ⟨p', q', rfl⟩ := hb
  exact ⟨_, _, endsAt_append p q p' q'⟩

/-- A part of `a` that is found in `b`. -/
theorem endsAt_of_slice (hlen : ((a.drop i).take k).length = k) (hb : (a.drop i).take k <:+: b) :
    ∃ j, EndsAt a b (i + k - 1) j k := by
  obtain ⟨p, q, hpq⟩ := hb
  have ha : a.take i ++ (a.drop i).take k ++ (a.drop i).drop k = a := by
    rw [append_assoc, take_append_drop, take_append_drop]
  have hi : k = 0 ∨ (a.take i).length = i := by
    rw [length_take, length_drop] at hlen
    rw [length_take]
    omega
  rcases hi with rfl | hi
  · exact ⟨0, endsAt_zero⟩
  · have h := endsAt_append (s := (a.drop i).take k) (a.take i) ((a.drop i).drop k) p q
    rw [ha, hpq, hlen, hi] at h
    exact ⟨_, h⟩

/-- The longest match over all pairs of positions is a longest common substring. -/
theorem longest_of_endsAt (h : EndsAt a b i j k) (hi : k = 0 ∨ i < a.length)
    (hmax : ∀ i j, ¬ EndsAt a b i j (k + 1)) :
    LongestCommon a b ((a.drop (i + 1 - k)).take k) where
  left := IsInfix.trans (IsPrefix.isInfix <| take_prefix ..) (drop_suffix ..).isInfix
  right := by
    rw [h.slice]
    exact IsInfix.trans (IsPrefix.isInfix <| take_prefix ..) (drop_suffix ..).isInfix
  longest s ha hb := by
    have hlen : ((a.drop (i + 1 - k)).take k).length = k := by
      have := h.1
      rw [length_take, length_drop]
      omega
    rw [hlen]
    by_contra hlt
    obtain ⟨i', j', he⟩ := endsAt_of_infix ha hb
    exact hmax i' j' (he.mono (by omega))

end Pintos.Core
