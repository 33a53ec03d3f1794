import Pintos.L4Results.Sort

/-!
# Binary search (lib/stdlib.c)

`binary_search_finds`: in a sorted array `binary_search` and `bsearch` return an
element equal to the key if there is one, and null otherwise. The loop narrows
a range of elements outside of which none is equal to the key.
-/
namespace Pintos.Sort

/-- The comparison with a key falls along the order of the elements. -/
structure Compatible {size : Nat} (le : Element size → Element size → Prop) (cmp : Element size → Int) : Prop where
  above : ∀ a b, le a b → 0 < cmp b → 0 < cmp a
  below : ∀ a b, le a b → cmp a < 0 → cmp b < 0

/-- The loop, when followed for long enough, ends with an element that compares
equal, or with null if there is none. -/
def Finds {size : Nat} (cnt : Nat) (m : Bytes) (cmp : Element size → Int) (run : Nat → Except Fault (Option Nat)) :
    Prop :=
  ∃ r, (∃ enough, ∀ fuel ≥ enough, run fuel = .ok r) ∧ match r with
    | some ofs => ∃ j < cnt, ofs = j * size ∧ cmp (element size m (j + 1)) = 0
    | none => ∀ e ∈ elements size cnt m, cmp e ≠ 0

section
variable {A K : Type} {cnt size : Nat} {m : Bytes} {le : Element size → Element size → Prop}
  {compare : K → Element size → A → Int} {key : K} {aux : A}

theorem sorted_lt (h : (elements size cnt m).Pairwise le) {i j : Nat} (hij : i < j) (hj : j < cnt) :
    le (element size m (i + 1)) (element size m (j + 1)) := by
  have hget := List.pairwise_iff_getElem.mp (List.pairwise_map.mp h) i j (by simp; omega) (by simpa) hij
  simpa [Nat.add_comm] using hget

theorem Finds.of_succ {cmp : Element size → Int} {run run' : Nat → Except Fault (Option Nat)}
    (h : Finds cnt m cmp run') (heq : ∀ fuel, run (fuel + 1) = run' fuel) : Finds cnt m cmp run := by
  obtain ⟨r, ⟨enough, hrun⟩, hr⟩ := h
  refine ⟨r, ⟨enough + 1, fun fuel hfuel => ?_⟩, hr⟩
  obtain ⟨fuel, rfl⟩ := Nat.exists_eq_add_of_le' (Nat.le_of_add_left_le hfuel)
  exact (heq fuel).trans (hrun fuel (by omega))

variable (m compare key aux) in
/-- One round, when the range is that of the elements from `a` to `b`. -/
theorem searchLoop_succ (hs : 1 ≤ size) (hb : cnt * size < 2 ^ 32) {a b c : Nat} (hab : a < b) (hbc : b ≤ cnt)
    (hc : c = a + (b - a) / 2) (fuel : Nat) :
    searchLoop (cnt * size) key compare aux m (fuel + 1) (a * size) (b * size) =
      if compare key (element size m (c + 1)) aux < 0 then
        searchLoop (cnt * size) key compare aux m fuel (a * size) (c * size)
      else if compare key (element size m (c + 1)) aux > 0 then
        searchLoop (cnt * size) key compare aux m fuel ((c + 1) * size) (b * size)
      else .ok (some (c * size)) := by
  have hrange : (b * size - a * size) / size = b - a := by rw [← Nat.sub_mul, Nat.mul_div_cancel _ hs]
  have hin : (c + 1) * size ≤ cnt * size := Nat.mul_le_mul_right size (by omega)
  have hofs : a * size + (b - a) / 2 * size % 2 ^ 32 = c * size := by
    have : (b - a) / 2 * size ≤ cnt * size := Nat.mul_le_mul_right size (by omega)
    rw [Nat.mod_eq_of_lt (by omega), hc, Nat.add_mul]
  rw [Nat.succ_mul] at hin ⊢
  rw [searchLoop, if_pos (Nat.mul_lt_mul_of_pos_right hab hs), hrange]
  simp only [hofs, readElement, if_pos hin]
  rfl

/-- The elements before `a` are below the key, and those from `b` on above it. -/
structure Narrowed (cmp : Nat → Int) (cnt a b : Nat) : Prop where
  le : a ≤ b
  le_cnt : b ≤ cnt
  before : ∀ j < a, 0 < cmp j
  after : ∀ j < cnt, b ≤ j → cmp j < 0

theorem searchLoop_finds (hs : 1 ≤ size) (hb : cnt * size < 2 ^ 32) (hsorted : (elements size cnt m).Pairwise le)
    (hcmp : Compatible le fun e => compare key e aux) {a b : Nat}
    (h : Narrowed (fun j => compare key (element size m (j + 1)) aux) cnt a b) :
    Finds cnt m (fun e => compare key e aux) fun fuel =>
      searchLoop (cnt * size) key compare aux m fuel (a * size) (b * size) := by
  induction hn : b - a using Nat.strong_induction_on generalizing a b with
  | _ n ih =>
    have hbc := h.le_cnt
    rcases Nat.eq_or_lt_of_le h.le with rfl | hab
    · refine ⟨none, ⟨1, fun fuel hfuel => ?_⟩, fun e he => ?_⟩
      · obtain ⟨fuel, rfl⟩ := Nat.exists_eq_add_of_le' hfuel
        simp [searchLoop]
      · obtain ⟨k, hk, rfl⟩ := List.mem_map.mp he
        obtain ⟨j, hj, rfl⟩ := List.mem_range'.mp hk
        rw [Nat.one_mul, Nat.add_comm]
        rcases Nat.lt_or_ge j a with hja | hja
        · exact Int.ne_of_gt (h.before j hja)
        · exact Int.ne_of_lt (h.after j hj hja)
    · obtain ⟨c, hc⟩ : ∃ c, c = a + (b - a) / 2 := ⟨_, rfl⟩
      have hround := searchLoop_succ m compare key aux hs hb hab hbc hc
      rcases Int.lt_trichotomy (compare key (element size m (c + 1)) aux) 0 with hneg | hzero | hpos
      · refine (ih (c - a) (by omega) ⟨by omega, by omega, h.before, fun j hj hcj => ?_⟩ rfl).of_succ fun fuel => by
          rw [hround, if_pos hneg]
        rcases Nat.eq_or_lt_of_le hcj with rfl | hcj
        · exact hneg
        · exact hcmp.below _ _ (sorted_lt hsorted hcj hj) hneg
      · refine ⟨some (c * size), ⟨1, fun fuel hfuel => ?_⟩, c, by omega, rfl, hzero⟩
        obtain ⟨fuel, rfl⟩ := Nat.exists_eq_add_of_le' hfuel
        simp [hround, hzero]
      · refine (ih (b - (c + 1)) (by omega) ⟨by omega, hbc, fun j hj => ?_, h.after⟩ rfl).of_succ fun fuel => by
          rw [hround, if_neg (Int.not_lt.mpr (Int.le_of_lt hpos)), if_pos hpos]
        rcases Nat.eq_or_lt_of_le (Nat.lt_succ_iff.mp hj) with rfl | hjc
        · exact hpos
        · exact hcmp.above _ _ (sorted_lt hsorted hjc (by omega)) hpos

theorem binarySearch_finds {array : Nat} (hfits : Fits array cnt size) (hsorted : (elements size cnt m).Pairwise le)
    (hcmp : Compatible le fun e => compare key e aux) :
    Finds cnt m (fun e => compare key e aux) fun fuel => binarySearch fuel key cnt size compare aux m := by
  have hfind := searchLoop_finds hfits.size_pos hfits.bytes hsorted hcmp (a := 0) (b := cnt)
    ⟨Nat.zero_le _, le_rfl, fun _ hj => absurd hj (Nat.not_lt_zero _), fun _ hj hle => absurd hj (Nat.not_lt.mpr hle)⟩
  simp only [binarySearch, Nat.mul_comm size cnt, Nat.mod_eq_of_lt hfits.bytes]
  rwa [Nat.zero_mul] at hfind

end

theorem binary_search_finds (array cnt size : Nat) (hfits : Fits array cnt size) (m : Bytes)
    (le : Element size → Element size → Prop) (hsorted : (elements size cnt m).Pairwise le) :
    (∀ (K A : Type) (key : K) (compare : K → Element size → A → Int) (aux : A),
      Compatible le (fun e => compare key e aux) →
        Finds cnt m (fun e => compare key e aux) fun fuel => binarySearch fuel key cnt size compare aux m) ∧
    ∀ (key : Element size) (compare : Element size → Element size → Int), Compatible le (compare key) →
      Finds cnt m (compare key) fun fuel => bsearch fuel key cnt compare m :=
  ⟨fun _ _ _ _ _ hcmp => binarySearch_finds hfits hsorted hcmp,
    fun key compare hcmp => binarySearch_finds hfits hsorted
      (show Compatible le fun e => compareThunk key e compare from hcmp)⟩

/-- Three bytes in increasing order. -/
theorem binary_search_finds_three : Fits 0x1000 3 1 ∧ (elements 1 3 UInt8.ofNat).Pairwise (Le byteOrder ()) ∧
    Finds 3 UInt8.ofNat (fun e => byteOrder #v[1] e ()) fun fuel =>
      binarySearch fuel #v[1] 3 1 byteOrder () UInt8.ofNat := by
  have hfits : Fits 0x1000 3 1 := ⟨by decide, by decide, by decide⟩
  have hsorted : (elements 1 3 UInt8.ofNat).Pairwise (Le byteOrder ()) := by decide
  refine ⟨hfits, hsorted, (binary_search_finds 0x1000 3 1 hfits UInt8.ofNat _ hsorted).1 _ _ _ _ _ ⟨?_, ?_⟩⟩
  all_goals
    unfold Le byteOrder
    omega

end Pintos.Sort
