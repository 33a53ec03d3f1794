import Pintos.L2Code.Bitmap
import Pintos.L2Code.FsInode

/-!
# Searching and claiming bits (lib/kernel/bitmap.c)

`Bitmap.bit` reads a bitmap as the bits its elements hold. Over it the functions
of `L2Code.Bitmap` are those the file system's free map is modelled with
(`set_multiple_refines`, `scan_refines`), and `scan_and_flip_claims` says which
group a search finds and what claiming it changes.
-/
namespace Pintos.KernelBitmap

open List
open Pintos.Lib (Stop)

/-- Bit `j` of the elements. -/
def Bitmap.bit (b : Bitmap) (j : Nat) : Bool := (b.bits.getD (j / 32) 0).getLsbD (j % 32)

/-- The `cnt` bits from `i` on lie inside the bitmap and all equal `value`. -/
def IsGroup (b : Bitmap) (cnt : Nat) (value : Bool) (i : Nat) : Prop :=
  i + cnt ≤ b.bitCnt ∧ ∀ j, i ≤ j → j < i + cnt → b.bit j = value

/-! ## One bit -/

/-- The size of a bitmap leaves room for rounding up. -/
theorem Bitmap.fits (b : Bitmap) : b.bitCnt + 31 < 2 ^ 32 := by
  by_contra hbig
  have hw := b.word
  -- The sum wraps to at most 30: no element is asked for.
  have hzero : elemCnt b.bitCnt = 0 := by rw [elemCnt]; omega
  have hnil : b.bits = [] := length_eq_zero_iff.mp (b.length.trans hzero)
  rcases b.stored with h | h
  · exact h hnil
  · omega

theorem Bitmap.elem_lt (b : Bitmap) {idx : Nat} (h : idx < b.bitCnt) : elemIdx idx < b.bits.length := by
  have hfits := b.fits
  rw [b.length, elemCnt, elemIdx, Nat.mod_eq_of_lt hfits]
  omega

theorem bitMask_getLsbD (i k : Nat) : (bitMask i).getLsbD k = decide (k = i % 32) := by
  have hi : i % 32 < 32 := Nat.mod_lt i (by decide)
  rw [bitMask, ← BitVec.twoPow_eq, BitVec.getLsbD_twoPow]
  simp [hi, eq_comm]

theorem and_bitMask_ne_zero (e : BitVec 32) (i : Nat) :
    decide (e &&& bitMask i ≠ 0) = e.getLsbD (i % 32) := by
  have hi : i % 32 < 32 := Nat.mod_lt i (by decide)
  cases hbit : e.getLsbD (i % 32) with
  | true =>
    refine decide_eq_true fun hzero => ?_
    have : (e &&& bitMask i).getLsbD (i % 32) = (0 : BitVec 32).getLsbD (i % 32) := by rw [hzero]
    rw [BitVec.getLsbD_and, hbit, bitMask_getLsbD] at this
    simp at this
  | false =>
    refine decide_eq_false (not_not_intro (BitVec.eq_of_getLsbD_eq fun k hk => ?_))
    rw [BitVec.getLsbD_and, bitMask_getLsbD i k]
    by_cases heq : k = i % 32
    · rw [heq, hbit]; simp
    · simp [heq]

theorem assert_ok {p : Prop} [Decidable p] (h : p) : assert p = .ok () := if_pos h

theorem bitmapTest_eq (b : Bitmap) {idx : Nat} (h : idx < b.bitCnt) : bitmapTest b idx = .ok (b.bit idx) := by
  have hlt := b.elem_lt h
  have helem : b.bits[elemIdx idx]? = some (b.bits.getD (idx / 32) 0) := by
    rw [getElem?_eq_getElem hlt, getD_eq_getElem?_getD]
    simp only [elemIdx] at hlt ⊢
    rw [getElem?_eq_getElem hlt, Option.getD_some]
  rw [bitmapTest, assert_ok h]
  simp only [bind, Except.bind, helem, and_bitMask_ne_zero]
  rfl

/-- An instruction on the element of `idx` that puts `value` in its bit and keeps
the others changes exactly that bit of the bitmap. -/
theorem update_bit (b : Bitmap) {idx : Nat} (h : idx < b.bitCnt) (f : BitVec 32 → BitVec 32) (value : Bool)
    (hf : ∀ e : BitVec 32, ∀ k, k < 32 → (f e).getLsbD k = if k = idx % 32 then value else e.getLsbD k) :
    ∃ b', update b (elemIdx idx) f = .ok b' ∧ b'.bitCnt = b.bitCnt ∧
      ∀ j, b'.bit j = if j = idx then value else b.bit j := by
  have hlt := b.elem_lt h
  refine ⟨b.setElem (elemIdx idx) (f b.bits[elemIdx idx]), ?_, rfl, fun j => ?_⟩
  · rw [update, getElem?_eq_getElem hlt]
  · have hj : j % 32 < 32 := Nat.mod_lt j (by decide)
    simp only [Bitmap.bit, Bitmap.setElem, getD_eq_getElem?_getD]
    by_cases hword : elemIdx idx = j / 32
    · rw [← hword, getElem?_set_self hlt, Option.getD_some, hf _ _ hj, getElem?_eq_getElem hlt,
        Option.getD_some]
      have hsame : j % 32 = idx % 32 ↔ j = idx := by rw [elemIdx] at hword; omega
      simp only [hsame]
    · have hne : j ≠ idx := by rintro rfl; exact hword rfl
      rw [getElem?_set_ne hword, if_neg hne]

theorem bitmapSet_bit (b : Bitmap) {idx : Nat} (h : idx < b.bitCnt) (value : Bool) :
    ∃ b', bitmapSet b idx value = .ok b' ∧ b'.bitCnt = b.bitCnt ∧
      ∀ j, b'.bit j = if j = idx then value else b.bit j := by
  have hset : bitmapSet b idx value = if value then bitmapMark b idx else bitmapReset b idx := by
    rw [bitmapSet, assert_ok h]
    rfl
  rw [hset]
  cases value with
  | true =>
    refine update_bit b h (· ||| bitMask idx) true fun e k hk => ?_
    rw [BitVec.getLsbD_or, bitMask_getLsbD idx k]
    by_cases heq : k = idx % 32 <;> simp [heq]
  | false =>
    refine update_bit b h (· &&& ~~~bitMask idx) false fun e k hk => ?_
    rw [BitVec.getLsbD_and, BitVec.getLsbD_not, bitMask_getLsbD idx k]
    by_cases heq : k = idx % 32 <;> simp [heq, hk]

/-! ## Ranges of bits -/

theorem setLoop_bit (start : Nat) (value : Bool) (n i : Nat) (b : Bitmap) (h : start + i + n ≤ b.bitCnt) :
    ∃ b', setLoop start value n i b = .ok b' ∧ b'.bitCnt = b.bitCnt ∧
      ∀ j, b'.bit j = if start + i ≤ j ∧ j < start + i + n then value else b.bit j := by
  induction n generalizing i b with
  | zero =>
    refine ⟨b, rfl, rfl, fun j => ?_⟩
    rw [if_neg]
    omega
  | succ n ih =>
    have hw := b.word
    have hidx : (start + i) % 2 ^ 32 = start + i := Nat.mod_eq_of_lt (by omega)
    obtain ⟨b₁, hset, hcnt₁, hbit₁⟩ := bitmapSet_bit b (show start + i < b.bitCnt by omega) value
    obtain ⟨b', hloop, hcnt, hbit⟩ := ih (i + 1) b₁ (by omega)
    refine ⟨b', ?_, hcnt.trans hcnt₁, fun j => ?_⟩
    · rw [setLoop, hidx, hset]
      exact hloop
    · rw [hbit, hbit₁]
      -- The bit set first is the one in front of the rest.
      by_cases hrest : start + (i + 1) ≤ j ∧ j < start + (i + 1) + n
      · rw [if_pos hrest, if_pos (by omega)]
      · rw [if_neg hrest]
        by_cases hfirst : j = start + i
        · rw [if_pos hfirst, if_pos (by omega)]
        · rw [if_neg hfirst, if_neg (by omega)]

/-- Setting a range inside the bitmap is the free map's `bitmapSetMultiple` on the bits. -/
theorem set_multiple_refines (b : Bitmap) (start cnt : Nat) (value : Bool) (h : start + cnt ≤ b.bitCnt) :
    ∃ b', bitmapSetMultiple b start cnt value = .ok b' ∧ b'.bitCnt = b.bitCnt ∧
      b'.bit = Fs.bitmapSetMultiple b.bit start cnt value := by
  have hw := b.word
  have hend : (start + cnt) % 2 ^ 32 ≤ b.bitCnt := by rw [Nat.mod_eq_of_lt (by omega)]; exact h
  obtain ⟨b', hloop, hcnt, hbit⟩ := setLoop_bit start value cnt 0 b h
  refine ⟨b', ?_, hcnt, funext hbit⟩
  rw [bitmapSetMultiple, assert_ok (show start ≤ b.bitCnt by omega), assert_ok hend]
  exact hloop

theorem containsLoop_ok (b : Bitmap) (start : Nat) (value : Bool) (n i : Nat) (h : start + i + n ≤ b.bitCnt) :
    ∃ r, containsLoop b start value n i = .ok r ∧
      (r = false ↔ ∀ j, start + i ≤ j → j < start + i + n → b.bit j ≠ value) := by
  induction n generalizing i with
  | zero => exact ⟨false, rfl, fun _ j _ _ => by omega, fun _ => rfl⟩
  | succ n ih =>
    have hw := b.word
    have hidx : (start + i) % 2 ^ 32 = start + i := Nat.mod_eq_of_lt (by omega)
    have htest := bitmapTest_eq b (show start + i < b.bitCnt by omega)
    obtain ⟨r, hloop, hr⟩ := ih (i + 1) (by omega)
    by_cases hbit : b.bit (start + i) = value
    · refine ⟨true, ?_, fun hfalse => absurd hfalse (by decide), fun hall => ?_⟩
      · rw [containsLoop, hidx, htest]
        exact if_pos hbit
      · exact absurd hbit (hall _ le_rfl (by omega))
    · refine ⟨r, ?_, ?_⟩
      · rw [containsLoop, hidx, htest]
        exact (if_neg hbit).trans hloop
      · rw [hr]
        constructor
        · intro hall j hj hlt
          rcases Nat.eq_or_lt_of_le hj with rfl | hj
          · exact hbit
          · exact hall j (by omega) (by omega)
        · intro hall j hj hlt
          exact hall j (by omega) (by omega)

theorem bitmapContains_ok (b : Bitmap) (cnt : Nat) (value : Bool) (i : Nat) (h : i + cnt ≤ b.bitCnt) :
    ∃ r, bitmapContains b i cnt (!value) = .ok r ∧ (r = false ↔ IsGroup b cnt value i) := by
  have hw := b.word
  have hend : (i + cnt) % 2 ^ 32 ≤ b.bitCnt := by rw [Nat.mod_eq_of_lt (by omega)]; exact h
  obtain ⟨r, hloop, hr⟩ := containsLoop_ok b i (!value) cnt 0 h
  refine ⟨r, ?_, ?_⟩
  · rw [bitmapContains, assert_ok (show i ≤ b.bitCnt by omega), assert_ok hend]
    exact hloop
  · simp only [hr, IsGroup, h, true_and, Nat.add_zero, ne_eq, Bool.eq_not, not_not]

/-! ## Searching -/

/-- The loop finds the first group among the next `n` indexes, if there is one. -/
theorem scanLoop_ok (b : Bitmap) (cnt : Nat) (value : Bool) (n i : Nat) (h : i + n + cnt ≤ b.bitCnt + 1) :
    (∃ r, scanLoop b cnt value n i = .ok r ∧ i ≤ r ∧ r < i + n ∧ IsGroup b cnt value r ∧
      ∀ k, i ≤ k → k < r → ¬ IsGroup b cnt value k) ∨
    (scanLoop b cnt value n i = .ok bitmapError ∧ ∀ k, i ≤ k → k < i + n → ¬ IsGroup b cnt value k) := by
  induction n generalizing i with
  | zero => exact .inr ⟨rfl, fun k _ _ => by omega⟩
  | succ n ih =>
    obtain ⟨other, hother, hgroup⟩ := bitmapContains_ok b cnt value i (by omega)
    by_cases hfound : other = false
    · refine .inl ⟨i, ?_, le_rfl, by omega, hgroup.mp hfound, fun k _ _ => by omega⟩
      rw [scanLoop, hother]
      exact if_pos hfound
    · have hnot : ¬ IsGroup b cnt value i := fun hg => hfound (hgroup.mpr hg)
      have hstep : scanLoop b cnt value (n + 1) i = scanLoop b cnt value n (i + 1) := by
        rw [scanLoop, hother]
        exact if_neg hfound
      have hskip : ∀ k, i ≤ k → (i + 1 ≤ k → ¬ IsGroup b cnt value k) → ¬ IsGroup b cnt value k := by
        intro k hk hrest
        rcases Nat.eq_or_lt_of_le hk with rfl | hk
        · exact hnot
        · exact hrest hk
      rw [hstep]
      rcases ih (i + 1) (by omega) with ⟨r, hloop, hle, hlt, hr, hfirst⟩ | ⟨hloop, hnone⟩
      · exact .inl ⟨r, hloop, by omega, by omega, hr, fun k hk hlt => hskip k hk fun hk => hfirst k hk hlt⟩
      · exact .inr ⟨hloop, fun k hk hlt => hskip k hk fun hk => hnone k hk (by omega)⟩

/-- What a search returns: the least group at or after `start`, or `BITMAP_ERROR`. -/
theorem bitmapScan_ok (b : Bitmap) (start cnt : Nat) (value : Bool) (h : start ≤ b.bitCnt) :
    (∃ r, bitmapScan b start cnt value = .ok r ∧ start ≤ r ∧ IsGroup b cnt value r ∧
      ∀ k, start ≤ k → IsGroup b cnt value k → r ≤ k) ∨
    (bitmapScan b start cnt value = .ok bitmapError ∧ ∀ k, start ≤ k → ¬ IsGroup b cnt value k) := by
  have hscan : bitmapScan b start cnt value =
      if cnt ≤ b.bitCnt then scanLoop b cnt value (b.bitCnt - cnt + 1 - start) start else .ok bitmapError := by
    rw [bitmapScan, assert_ok h]
    rfl
  rw [hscan]
  by_cases hcnt : cnt ≤ b.bitCnt
  · rw [if_pos hcnt]
    by_cases hlast : start ≤ b.bitCnt - cnt
    · rcases scanLoop_ok b cnt value (b.bitCnt - cnt + 1 - start) start (by omega) with
        ⟨r, hloop, hle, -, hr, hfirst⟩ | ⟨hloop, hnone⟩
      · exact .inl ⟨r, hloop, hle, hr, fun k hk hg => not_lt.mp fun hlt => hfirst k hk hlt hg⟩
      · refine .inr ⟨hloop, fun k hk hg => hnone k hk ?_ hg⟩
        have := hg.1
        omega
    · -- No candidate is left: the loop ends before its first step.
      have hsteps : b.bitCnt - cnt + 1 - start = 0 := by omega
      rw [hsteps]
      refine .inr ⟨rfl, fun k hk hg => ?_⟩
      have := hg.1
      omega
  · rw [if_neg hcnt]
    refine .inr ⟨rfl, fun k _ hg => ?_⟩
    have := hg.1
    omega

/-- A group is never at `BITMAP_ERROR`. -/
theorem IsGroup.ne_error {b : Bitmap} {cnt : Nat} {value : Bool} {i : Nat} (h : IsGroup b cnt value i) :
    i ≠ bitmapError := by
  have hfits := b.fits
  have := h.1
  rw [bitmapError]
  omega

theorem isGroup_free_iff (b : Bitmap) (cnt i : Nat) (h : i + cnt ≤ b.bitCnt) :
    IsGroup b cnt false i ↔ Fs.bitmapContains b.bit i cnt true = false := by
  simp only [IsGroup, h, true_and, Fs.bitmapContains, any_eq_false, mem_range, beq_true,
    Bool.not_eq_true]
  constructor
  · intro hall j hj
    exact hall (i + j) (by omega) (by omega)
  · intro hall j hle hlt
    have := hall (j - i) (by omega)
    rwa [Nat.add_sub_cancel' hle] at this

/-- The search of the free map for clear bits is this one, from the start. -/
theorem scan_refines (b : Bitmap) (cnt : Nat) :
    bitmapScan b 0 cnt false = .ok ((Fs.bitmapScan b.bit b.bitCnt cnt).getD bitmapError) := by
  rw [Fs.bitmapScan]
  rcases bitmapScan_ok b 0 cnt false (Nat.zero_le _) with ⟨r, hscan, -, hr, hfirst⟩ | ⟨hscan, hnone⟩
  · have hle := hr.1
    have hfind : (range (b.bitCnt - cnt + 1)).find? (fun i => !Fs.bitmapContains b.bit i cnt true) = some r := by
      rw [find?_range_eq_some]
      refine ⟨?_, by rw [mem_range]; omega, fun k hk => ?_⟩
      · rw [(isGroup_free_iff b cnt r hle).mp hr, Bool.not_false]
      · rw [Bool.not_not]
        refine Bool.eq_true_of_not_eq_false fun hfree => ?_
        have := hfirst k (Nat.zero_le k) ((isGroup_free_iff b cnt k (by omega)).mpr hfree)
        omega
    rw [hscan, if_pos (show cnt ≤ b.bitCnt by omega), hfind, Option.getD_some]
  · rw [hscan]
    by_cases hcnt : cnt ≤ b.bitCnt
    · have hfind : (range (b.bitCnt - cnt + 1)).find? (fun i => !Fs.bitmapContains b.bit i cnt true) = none := by
        rw [find?_eq_none]
        intro k hk hfree
        rw [mem_range] at hk
        rw [Bool.not_eq_true'] at hfree
        exact hnone k (Nat.zero_le k) ((isGroup_free_iff b cnt k (by omega)).mpr hfree)
      rw [if_pos hcnt, hfind, Option.getD_none]
    · rw [if_neg hcnt, Option.getD_none]

/-- As `free_map_allocate` calls it, `bitmap_scan_and_flip` claims on the elements
what the file system's free map says, or reports that there is nothing. -/
theorem allocate_refines (b : Bitmap) (cnt : Nat) :
    ∃ b', bitmapScanAndFlip b 0 cnt false = .ok ((Fs.bitmapScan b.bit b.bitCnt cnt).getD bitmapError, b') ∧
      b'.bitCnt = b.bitCnt ∧
      b'.bit = (Fs.bitmapScan b.bit b.bitCnt cnt).elim b.bit fun sec => Fs.bitmapSetMultiple b.bit sec cnt true := by
  have hscan := scan_refines b cnt
  cases hsec : Fs.bitmapScan b.bit b.bitCnt cnt with
  | none =>
    rw [hsec] at hscan
    exact ⟨b, by simp [bitmapScanAndFlip, hscan, bind, Except.bind], rfl, rfl⟩
  | some sec =>
    rw [hsec] at hscan
    have hle : sec + cnt ≤ b.bitCnt := by
      unfold Fs.bitmapScan at hsec
      split at hsec
      · have := mem_range.mp (mem_of_find?_eq_some hsec)
        omega
      · cases hsec
    have hne : sec ≠ bitmapError := by
      have := b.fits
      rw [bitmapError]
      omega
    obtain ⟨b', hset, hcnt, hbit⟩ := set_multiple_refines b sec cnt true hle
    exact ⟨b', by simp [bitmapScanAndFlip, hscan, bind, Except.bind, hne, hset], hcnt, hbit⟩

/-! ## The result -/

/-- `bitmap_scan` returns the least index at or after `start` from which `cnt` bits
of the bitmap equal `value`, and `BITMAP_ERROR` exactly if there is none.
`bitmap_scan_and_flip` returns the same index, sets the bits of that group to
`!value` and changes no other bit of any element. -/
theorem scan_and_flip_claims (b : Bitmap) (start cnt : Nat) (value : Bool) (h : start ≤ b.bitCnt) :
    ∃ r, bitmapScan b start cnt value = .ok r ∧
      (r = bitmapError ↔ ¬ ∃ i, start ≤ i ∧ IsGroup b cnt value i) ∧
      (r ≠ bitmapError → start ≤ r ∧ IsGroup b cnt value r ∧ ∀ i, start ≤ i → IsGroup b cnt value i → r ≤ i) ∧
      ∃ b', bitmapScanAndFlip b start cnt value = .ok (r, b') ∧ b'.bitCnt = b.bitCnt ∧
        ∀ j, b'.bit j = if r ≠ bitmapError ∧ r ≤ j ∧ j < r + cnt then !value else b.bit j := by
  rcases bitmapScan_ok b start cnt value h with ⟨r, hscan, hle, hr, hfirst⟩ | ⟨hscan, hnone⟩
  · have hne := hr.ne_error
    obtain ⟨b', hset, hcnt, hbit⟩ := set_multiple_refines b r cnt (!value) hr.1
    refine ⟨r, hscan, ⟨fun herr => absurd herr hne, fun hno => absurd ⟨r, hle, hr⟩ hno⟩,
      fun _ => ⟨hle, hr, hfirst⟩, b', ?_, hcnt, fun j => ?_⟩
    · rw [bitmapScanAndFlip, hscan]
      simp only [bind, Except.bind, if_pos hne, hset]
    · simp only [hbit, Fs.bitmapSetMultiple, ne_eq, hne, not_false_eq_true, true_and]
  · refine ⟨bitmapError, hscan, ⟨fun _ => ?_, fun _ => rfl⟩, fun hne => absurd rfl hne, b, ?_, rfl, fun j => ?_⟩
    · rintro ⟨i, hi, hg⟩
      exact hnone i hi hg
    · rw [bitmapScanAndFlip, hscan]
      rfl
    · simp

/-- Forty bits, of which those from 5 on are clear. -/
def fortyBits : Bitmap where
  bitCnt := 40
  bits := [0x1f, 0]
  word := by decide
  length := by decide
  stored := .inl (by decide)

/-- The thirty bits found from bit 3 on lie in both elements. -/
theorem scan_and_flip_claims_straddling : ∃ r, bitmapScan fortyBits 3 30 false = .ok r ∧ r = 5 := by
  obtain ⟨r, hscan, -⟩ := scan_and_flip_claims fortyBits 3 30 false (by decide)
  have hrun : bitmapScan fortyBits 3 30 false = .ok 5 := by decide
  exact ⟨r, hscan, by rw [hscan] at hrun; exact Except.ok.inj hrun⟩

end Pintos.KernelBitmap
